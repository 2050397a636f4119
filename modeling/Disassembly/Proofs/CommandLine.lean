import Disassembly.Arguments.Reader

/-!
# What an argument list says

A parser reports the values of each option by themselves, and takes the output name and the switches
out of their places. Here an argument list is described with everything in its place: `Letters` and
`Says` give the ways of writing arguments, and what they say from left to right as a list of
mentions. An argument list says one thing only (`Says.unique`).
-/

namespace Disassembly.Arguments

/-- One thing that an argument list says. -/
inductive Mention where
  | item (item : Item)
  | output (name : String)
  | switch (s : Switch)
deriving DecidableEq, Repr

namespace Mention

/-- What an option says with its value. -/
def ofValue (option : Valued) (value : String) : Mention :=
  match option with
  | .setting s => .item (.setting s value)
  | .output => .output value
  | .optionsFile => .item (.optionsFile value)

def item? : Mention → Option Item
  | item i => some i
  | _ => none

def output? : Mention → Option String
  | output name => some name
  | _ => none

end Mention

/-- What the letters after a `-` say, and the option at their end that waits for its value. -/
inductive Letters : List Char → List Mention → Option Valued → Prop
  | nil : Letters [] [] none
  | switch {c : Char} {cs : List Char} {s : Switch} {ms : List Mention} {pending : Option Valued} :
      Switch.ofLetter? c = some s → Letters cs ms pending →
      Letters (c :: cs) (.switch s :: ms) pending
  | waiting {c : Char} {option : Valued} :
      Valued.ofLetter? c = some option → Letters [c] [] (some option)
  /-- `-d=value` -/
  | assigned {c : Char} {option : Valued} {value : List Char} :
      Valued.ofLetter? c = some option →
      Letters (c :: '=' :: value) [.ofValue option (String.ofList value)] none
  /-- `-dvalue` -/
  | attached {c first : Char} {option : Valued} {value : List Char} :
      Valued.ofLetter? c = some option → first ≠ '=' →
      Letters (c :: first :: value) [.ofValue option (String.ofList (first :: value))] none

/-- What arguments say, from left to right, possibly after an option that waits for its value. -/
inductive Says : Option Valued → List String → List Mention → Prop
  | nil : Says none [] []
  | value {option : Valued} {a : String} {rest : List String} {ms : List Mention} :
      isValue a.toList = true → Says none rest ms →
      Says (some option) (a :: rest) (.ofValue option a :: ms)
  | name {a : String} {rest : List String} {ms : List Mention} :
      isValue a.toList = true → Says none rest ms → Says none (a :: rest) (.item (.input a) :: ms)
  /-- After `--` there are only input names. -/
  | names {a : String} {rest : List String} : a.toList = ['-', '-'] →
      Says none (a :: rest) (rest.map fun name => .item (.input name))
  | letters {a : String} {c : Char} {cs : List Char} {rest : List String} {ms ms' : List Mention}
      {pending : Option Valued} : a.toList = '-' :: c :: cs → c ≠ '-' →
      Letters (c :: cs) ms pending → Says pending rest ms' → Says none (a :: rest) (ms ++ ms')

/-- An argument list as it is read: `-?` asks for help. -/
def readable (list : List String) : List String :=
  list.map fun a => if a = "-?" then "-h" else a

/-! ## One reading only -/

theorem valued_of_switch {c : Char} {s : Switch} (h : Switch.ofLetter? c = some s) :
    Valued.ofLetter? c = none := by
  unfold Switch.ofLetter? at h
  split at h
  · rfl
  · rfl
  · rfl
  · rfl
  · cases h

theorem Letters.unique {cs : List Char} {ms ms' : List Mention} {pending pending' : Option Valued}
    (h : Letters cs ms pending) (h' : Letters cs ms' pending') :
    ms = ms' ∧ pending = pending' := by
  -- a letter is a switch or takes a value, so the first one decides which rule applies
  have hclash : ∀ {c : Char} {s : Switch} {option : Valued}, Switch.ofLetter? c = some s →
      Valued.ofLetter? c = some option → False := by
    intro c s option hs hoption
    rw [valued_of_switch hs] at hoption
    cases hoption
  induction h generalizing ms' pending' with
  | nil =>
      cases h'
      exact ⟨rfl, rfl⟩
  | switch hs _ ih =>
      cases h' with
      | switch hs' hrest =>
          rw [hs] at hs'
          cases hs'
          obtain ⟨hms, hpending⟩ := ih hrest
          exact ⟨congrArg _ hms, hpending⟩
      | waiting hoption => exact (hclash hs hoption).elim
      | assigned hoption => exact (hclash hs hoption).elim
      | attached hoption _ => exact (hclash hs hoption).elim
  | waiting hoption =>
      cases h' with
      | switch hs _ => exact (hclash hs hoption).elim
      | waiting hoption' =>
          rw [hoption] at hoption'
          exact ⟨rfl, hoption'⟩
  | assigned hoption =>
      cases h' with
      | switch hs _ => exact (hclash hs hoption).elim
      | assigned hoption' =>
          rw [hoption] at hoption'
          cases hoption'
          exact ⟨rfl, rfl⟩
      | attached _ hne => exact absurd rfl hne
  | attached hoption hne =>
      cases h' with
      | switch hs _ => exact (hclash hs hoption).elim
      | assigned _ => exact absurd rfl hne
      | attached hoption' _ =>
          rw [hoption] at hoption'
          cases hoption'
          exact ⟨rfl, rfl⟩

theorem Says.unique {pending : Option Valued} {list : List String} {ms ms' : List Mention}
    (h : Says pending list ms) (h' : Says pending list ms') : ms = ms' := by
  have hplain : ∀ {a : String} {c : Char} {cs : List Char}, isValue a.toList = true →
      a.toList = '-' :: c :: cs → False := by
    intro a c cs hvalue hletters
    rw [hletters] at hvalue
    cases hvalue
  induction h generalizing ms' with
  | nil =>
      cases h'
      rfl
  | value _ _ ih =>
      cases h' with
      | value _ hrest => rw [ih hrest]
  | name hvalue _ ih =>
      cases h' with
      | name _ hrest => rw [ih hrest]
      | names hdashes => exact (hplain hvalue hdashes).elim
      | letters hletters _ _ _ => exact (hplain hvalue hletters).elim
  | names hdashes =>
      cases h' with
      | name hvalue _ => exact (hplain hvalue hdashes).elim
      | names _ => rfl
      | letters hletters hdash _ _ =>
          rw [hdashes] at hletters
          cases hletters
          exact absurd rfl hdash
  | letters hletters hdash hms _ ih =>
      cases h' with
      | name hvalue _ => exact (hplain hvalue hletters).elim
      | names hdashes =>
          rw [hdashes] at hletters
          cases hletters
          exact absurd rfl hdash
      | letters hletters' _ hms' hrest =>
          rw [hletters] at hletters'
          cases hletters'
          obtain ⟨rfl, rfl⟩ := hms.unique hms'
          rw [ih hrest]

end Disassembly.Arguments
