import Mathlib.Data.List.Induction
import Melody.Command.Options

/-!
# What arguments spell

A command line is cut into settings from left to right: some arguments make a setting by themselves, and the
others take the argument behind them, whatever that looks like. Of the settings of one kind the last counts.

## The architecture

* **`Setting`** is one setting, **`Setting.Spelled`** what it is spelled by, and **`Spelled`** a whole command
  line. **`Options.ofSettings`** are the options of settings.
* **`Options.parse_append`**: settings are read one by one.
* **`Options.parse_eq_ok_iff`**: the options of a command line are those of the settings that it spells, and
  **`Options.parse_eq_help_iff`**: help is asked for where a setting could stand.
-/

namespace Melody.Options

/-! ## Settings -/

inductive Setting
  | source (s : Source)
  | output (path : String)
  | tempo (bpm : UInt32)
  /-- Notation is not checked against the strict rules. -/
  | lenient
deriving DecidableEq

namespace Setting

/-- The arguments that spell a setting. -/
inductive Spelled : Setting → List String → Prop
  | line {name text : String} (hname : name = "--notation" ∨ name = "-n") :
      Spelled (source (.line text)) [name, text]
  | midi {name path : String} (hname : name = "--inspect" ∨ name = "-i") :
      Spelled (source (.midi path)) [name, path]
  | output {name path : String} (hname : name = "--output" ∨ name = "-o") :
      Spelled (output path) [name, path]
  | tempo {name text : String} {bpm : UInt32} (hname : name = "--tempo" ∨ name = "-t")
      (htext : tempoOfText text = .ok bpm) : Spelled (tempo bpm) [name, text]
  | lenient : Spelled lenient ["--no-validate"]
  | score {path : String} (hpath : path.toList.head? ≠ some '-') :
      Spelled (source (.score path)) [path]

def source? : Setting → Option Source
  | source s => some s
  | _ => none

def output? : Setting → Option String
  | output path => some path
  | _ => none

def tempo? : Setting → Option UInt32
  | tempo bpm => some bpm
  | _ => none

end Setting

/-- The arguments that spell settings, in order. -/
inductive Spelled : List Setting → List String → Prop
  | nil : Spelled [] []
  | cons {s : Setting} {args : List String} {settings : List Setting} {rest : List String}
      (h : s.Spelled args) (hrest : Spelled settings rest) : Spelled (s :: settings) (args ++ rest)

theorem Spelled.singleton {s : Setting} {args : List String} (h : s.Spelled args) : Spelled [s] args := by
  rw [← List.append_nil args]
  exact .cons h .nil

theorem Spelled.append {settings more : List Setting} {args rest : List String} (h : Spelled settings args)
    (hrest : Spelled more rest) : Spelled (settings ++ more) (args ++ rest) := by
  induction h with
  | nil => exact hrest
  | cons hs _ ih =>
    rw [List.append_assoc]
    exact .cons hs ih

/-- Whether settings are followed by a call for help. What stands behind that is never read. -/
def AsksForHelp (args : List String) : Prop :=
  ∃ settings front name rest, args = front ++ name :: rest ∧ Spelled settings front ∧
    (name = "--help" ∨ name = "-h")

/-- Settings in front of a call for help do not keep it from being one. -/
theorem AsksForHelp.append {settings : List Setting} {front rest : List String}
    (hfront : Spelled settings front) (h : AsksForHelp rest) : AsksForHelp (front ++ rest) := by
  obtain ⟨more, before, name, behind, rfl, hbefore, hname⟩ := h
  exact ⟨settings ++ more, front ++ before, name, behind, (List.append_assoc _ _ _).symm,
    hfront.append hbefore, hname⟩

/-! ## Their options -/

/-- The options of settings: the last source, output and tempo, and whether leniency is asked for. -/
def ofSettings (settings : List Setting) : Options where
  source := (settings.filterMap Setting.source?).getLast?
  output := (settings.filterMap Setting.output?).getLast?
  tempo := (settings.filterMap Setting.tempo?).getLast?
  strict := decide (.lenient ∉ settings)

/-- The options with one more setting. -/
def put (o : Options) : Setting → Options
  | .source s => { o with source := some s }
  | .output path => { o with output := some path }
  | .tempo bpm => { o with tempo := some bpm }
  | .lenient => { o with strict := false }

/-- Settings that are put one after the other leave the last of each kind. The induction is on the last
setting, since that is the one that counts. -/
theorem foldl_put (settings : List Setting) : settings.foldl put initial = ofSettings settings := by
  induction settings using List.reverseRecOn with
  | nil => rfl
  | append_singleton settings s ih =>
    rw [List.foldl_append, ih]
    simp only [ofSettings, List.filterMap_append, List.foldl_cons, List.foldl_nil]
    -- the new setting is the last of its own kind, and of no other
    cases s with
    | source s => simp [put, Setting.source?, Setting.output?, Setting.tempo?]
    | output path => simp [put, Setting.source?, Setting.output?, Setting.tempo?]
    | tempo bpm => simp [put, Setting.source?, Setting.output?, Setting.tempo?]
    | lenient => simp [put, Setting.source?, Setting.output?, Setting.tempo?]

variable {o : Options} {args rest : List String} {settings : List Setting} {s : Setting}

/-! ## Reading one setting -/

/-- What starts with a dash is told apart from what does not by its first character. -/
theorem ne_of_head?_ne {arg name : String} (h : arg.toList.head? ≠ some '-')
    (hname : name.toList.head? = some '-') : arg ≠ name := by
  rintro rfl
  exact h hname

/-- An argument that does not start with a dash takes none. -/
theorem Key.ofText?_eq_none {arg : String} (h : arg.toList.head? ≠ some '-') : Key.ofText? arg = none := by
  have hne {name short : String} (hname : name.toList.head? = some '-')
      (hshort : short.toList.head? = some '-') : ¬(arg = name ∨ arg = short) :=
    not_or.2 ⟨ne_of_head?_ne h hname, ne_of_head?_ne h hshort⟩
  rw [Key.ofText?, if_neg (hne rfl rfl), if_neg (hne rfl rfl), if_neg (hne rfl rfl), if_neg (hne rfl rfl)]

/-- The arguments that stand alone. -/
theorem setAlone_cases (o : Options) (arg : String) :
    (∃ s, Setting.Spelled s [arg] ∧ o.setAlone arg = .ok (o.put s)) ∨
    ((arg = "--help" ∨ arg = "-h") ∧ o.setAlone arg = .error .help) ∨
    o.setAlone arg = .error (.unknown arg) := by
  rw [setAlone]
  -- in the order of the code: the flags first, then a dashed word nobody knows, then a score
  split
  · next h =>
    subst h
    exact .inl ⟨.lenient, .lenient, rfl⟩
  split
  · next h => exact .inr (.inl ⟨h, rfl⟩)
  split
  · exact .inr (.inr rfl)
  · next h => exact .inl ⟨_, .score h, rfl⟩

/-- The arguments that take another are known by two names each. -/
theorem Key.ofText?_eq_some_iff {arg : String} (key : Key) :
    Key.ofText? arg = some key ↔
      match key with
      | .line => arg = "--notation" ∨ arg = "-n"
      | .midi => arg = "--inspect" ∨ arg = "-i"
      | .output => arg = "--output" ∨ arg = "-o"
      | .tempo => arg = "--tempo" ∨ arg = "-t" := by
  constructor
  · intro h
    -- the names are tried in order, and the first that fits decides
    rw [Key.ofText?] at h
    split at h
    · next hname =>
      obtain rfl := Option.some.inj h
      exact hname
    split at h
    · next hname =>
      obtain rfl := Option.some.inj h
      exact hname
    split at h
    · next hname =>
      obtain rfl := Option.some.inj h
      exact hname
    split at h
    · next hname =>
      obtain rfl := Option.some.inj h
      exact hname
    · cases h
  · intro h
    cases key with
    | line => rcases h with rfl | rfl <;> decide
    | midi => rcases h with rfl | rfl <;> decide
    | output => rcases h with rfl | rfl <;> decide
    | tempo => rcases h with rfl | rfl <;> decide

/-- The arguments that take the one behind them. -/
theorem set_cases (o : Options) {arg : String} {key : Key} (hkey : Key.ofText? arg = some key)
    (value : String) :
    (∃ s, Setting.Spelled s [arg, value] ∧ o.set key value = .ok (o.put s)) ∨
    ∃ fault, o.set key value = .error (.badTempo value fault) := by
  rw [Key.ofText?_eq_some_iff] at hkey
  cases key with
  | line => exact .inl ⟨_, .line hkey, rfl⟩
  | midi => exact .inl ⟨_, .midi hkey, rfl⟩
  | output => exact .inl ⟨_, .output hkey, rfl⟩
  | tempo =>
    -- of all values only a tempo is looked at, and may make no sense
    cases htext : tempoOfText value with
    | ok bpm => exact .inl ⟨_, .tempo hkey htext, by rw [set, htext]; rfl⟩
    | error fault => exact .inr ⟨fault, by rw [set, htext]⟩

/-- An argument that takes no other is one step of the reader. -/
theorem parse_alone {arg : String} (hkey : Key.ofText? arg = none) :
    o.parse (arg :: rest) = o.setAlone arg >>= fun o => o.parse rest := by
  rw [parse.eq_def]
  dsimp only
  rw [hkey]

/-- An argument that takes another reads it as its value, whatever that looks like. -/
theorem parse_key {arg value : String} {key : Key} (hkey : Key.ofText? arg = some key) :
    o.parse (arg :: value :: rest) = o.set key value >>= fun o => o.parse rest := by
  rw [parse.eq_def]
  dsimp only
  rw [hkey]

/-- A setting is read as it is spelled. -/
theorem parse_append_of_spelled (h : s.Spelled args) : o.parse (args ++ rest) = (o.put s).parse rest := by
  cases h with
  | line hname => exact parse_key ((Key.ofText?_eq_some_iff .line).2 hname)
  | midi hname => exact parse_key ((Key.ofText?_eq_some_iff .midi).2 hname)
  | output hname => exact parse_key ((Key.ofText?_eq_some_iff .output).2 hname)
  | @tempo name text bpm hname htext =>
    have hset : o.set .tempo text = .ok (o.put (.tempo bpm)) := by rw [set, htext]; rfl
    exact (parse_key ((Key.ofText?_eq_some_iff .tempo).2 hname)).trans (by rw [hset]; rfl)
  | lenient => rfl
  | @score path hpath =>
    -- a path is what is left when no option has its name, and it starts with no dash
    have halone : o.setAlone path = .ok (o.put (.source (.score path))) := by
      rw [setAlone, if_neg (ne_of_head?_ne hpath rfl),
        if_neg (not_or.2 ⟨ne_of_head?_ne hpath rfl, ne_of_head?_ne hpath rfl⟩), if_neg hpath]
      rfl
    exact (parse_alone (Key.ofText?_eq_none hpath)).trans (by rw [halone]; rfl)

/-- Settings are read one by one. -/
theorem parse_append (h : Spelled settings args) :
    o.parse (args ++ rest) = (settings.foldl put o).parse rest := by
  induction h generalizing o with
  | nil => rfl
  | cons hsetting _ ih => rw [List.append_assoc, parse_append_of_spelled hsetting, ih, List.foldl_cons]

/-! ## What arguments come to -/

/-- What arguments can come to: they spell settings, they ask for help in front of the first that is wrong, or
they are wrong. -/
inductive ComesTo (o : Options) (args : List String) : Except Refusal Options → Prop
  | options {settings : List Setting} (h : Spelled settings args) : ComesTo o args (.ok (settings.foldl put o))
  | help (h : AsksForHelp args) : ComesTo o args (.error .help)
  | wrong {refusal : Refusal} (h : refusal ≠ .help) : ComesTo o args (.error refusal)

/-- A setting in front of arguments changes the options that they are added to. -/
theorem ComesTo.cons {front : List String} {result : Except Refusal Options} (hs : s.Spelled front)
    (h : ComesTo (o.put s) rest result) : ComesTo o (front ++ rest) result := by
  cases h with
  | @options settings hrest =>
    have hspelled : Spelled (s :: settings) (front ++ rest) := .cons hs hrest
    exact .options hspelled
  | help hrest => exact .help (.append (Spelled.singleton hs) hrest)
  | wrong hrefusal => exact .wrong hrefusal

/-- Arguments come to one of the three. The cases are those of the reader: the end, an argument that stands
alone, one that lacks its value, and one with its value. -/
theorem comesTo_parse (o : Options) (args : List String) : ComesTo o args (o.parse args) := by
  fun_induction parse o args with
  | case1 o => exact .options .nil
  | case2 o arg rest hkey ih =>
    -- a setting is put in front of what the rest comes to, and anything else ends the reading
    rcases o.setAlone_cases arg with ⟨s, hs, halone⟩ | ⟨hname, halone⟩ | halone
    · rw [halone]
      exact .cons hs (ih _)
    · rw [halone]
      exact .help ⟨[], [], arg, rest, rfl, .nil, hname⟩
    · rw [halone]
      exact .wrong nofun
  -- the last argument lacks the one behind it
  | case3 o arg key hkey => exact .wrong nofun
  | case4 o arg key value rest hkey ih =>
    rcases o.set_cases hkey value with ⟨s, hs, hset⟩ | ⟨fault, hset⟩
    · rw [hset]
      exact .cons hs (ih _)
    · rw [hset]
      exact .wrong nofun

/-- **The options of a command line** are those of the settings that it spells. -/
theorem parse_eq_ok_iff :
    initial.parse args = .ok o ↔ ∃ settings, Spelled settings args ∧ o = ofSettings settings := by
  constructor
  · -- the specification relation has one outcome for every argument list, so its case is the result's
    intro h
    have hcomes := comesTo_parse initial args
    rw [h] at hcomes
    cases hcomes with
    | @options settings hspelled => exact ⟨settings, hspelled, foldl_put settings⟩
  · rintro ⟨settings, hspelled, rfl⟩
    rw [← List.append_nil args, parse_append hspelled, foldl_put]
    rfl

/-- **Help is asked for** where a setting could stand. -/
theorem parse_eq_help_iff : o.parse args = .error .help ↔ AsksForHelp args := by
  constructor
  · intro h
    have hcomes := comesTo_parse o args
    rw [h] at hcomes
    cases hcomes with
    | help hasks => exact hasks
    | wrong hne => exact absurd rfl hne
  · rintro ⟨settings, front, name, rest, rfl, hfront, hname⟩
    -- the settings in front are read, and then the call is what comes next
    rw [parse_append hfront]
    rcases hname with rfl | rfl <;> rfl

end Melody.Options
