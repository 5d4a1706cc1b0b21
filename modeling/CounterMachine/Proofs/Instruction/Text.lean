import CounterMachine.Instruction.Text
import CounterMachine.Proofs.Execution.Renaming
import CounterMachine.Proofs.Identifier.Grammar
import CounterMachine.Proofs.Semantics.Machine

/-!
# The text of an instruction determines what it does

The text of an instruction is an assignment or a jump. Only a few characters separate its parts: a
variable or a numeral ends before the first character that is neither a letter nor a digit, and the
name of a function before the first comma or parenthesis. So the parts can be found again, at any
depth of nested calls, as long as the names of functions do not contain these characters.

Three instructions abbreviate longer ones and have the same texts as these. A text does not tell the
two apart, but the execution does not either.

## Key definitions

- `Instruction.PlainNames`: no function name contains a comma or a parenthesis
- `Instruction.Abbreviates`: the three pairs of instructions with the same text
- `Sentence`: the parts of a text

## Key results

- `Argument.text_append_inj`: where the text of an argument ends, and what the argument is
- `Sentence.chars_inj`: the parts of a text
- `Instruction.Abbreviates.execute`: an abbreviation does what it abbreviates
- `Instruction.text_determines`: instructions with the same text do the same
-/

namespace CounterMachine

/-! ### Words in a text -/

namespace Text

/-- What the name of a function may be made of: anything but a comma or a parenthesis. -/
def isNamePart (c : Char) : Bool := c != ',' && c != '(' && c != ')'

/-- A numeral is made of letters and digits, of digits in fact. -/
theorem isAlphanum_of_mem_repr {n : Nat} {c : Char} (h : c ∈ n.repr.toList) :
    c.isAlphanum = true := by
  rw [Char.isAlphanum, isDigit_of_mem_repr h, Bool.or_true]

end Text

open Text (WordEnd isNamePart wordEnd_nil wordEnd_cons wordEnd_append word_append_inj)

/-- What is written for a variable is made of letters and digits. -/
theorem Variable.isAlphanum_of_mem_text {v : Variable} {c : Char} (h : c ∈ v.text.toList) :
    c.isAlphanum = true := by
  rw [toList_text] at h
  cases v with
  | result =>
    obtain rfl := List.mem_singleton.mp h
    rfl
  | input n =>
    rcases List.mem_cons.mp h with rfl | h
    · rfl
    · exact Text.isAlphanum_of_mem_repr h
  | work n =>
    rcases List.mem_cons.mp h with rfl | h
    · rfl
    · exact Text.isAlphanum_of_mem_repr h

/-- A variable starts with one of three letters. -/
theorem Variable.exists_text_eq (v : Variable) :
    ∃ c ∈ ['x', 'y', 'z'], ∃ rest, v.text.toList = c :: rest := by
  rw [toList_text]
  cases v with
  | result => exact ⟨'y', by decide, _, rfl⟩
  | input n => exact ⟨'x', by decide, _, rfl⟩
  | work n => exact ⟨'z', by decide, _, rfl⟩

/-- What starts with another character starts with no variable. -/
theorem Variable.text_append_ne (v : Variable) {c : Char} (hc : c ∉ ['x', 'y', 'z'])
    (rest tail : List Char) : v.text.toList ++ rest ≠ c :: tail := by
  obtain ⟨letter, hletter, others, htext⟩ := v.exists_text_eq
  intro h
  rw [htext] at h
  exact hc ((List.cons.inj h).1 ▸ hletter)

/-- A variable in front of a text can be found again. -/
theorem Variable.text_append_inj {v w : Variable} {rest rest' : List Char}
    (hrest : WordEnd Char.isAlphanum rest) (hrest' : WordEnd Char.isAlphanum rest')
    (h : v.text.toList ++ rest = w.text.toList ++ rest') : v = w ∧ rest = rest' := by
  obtain ⟨htext, hsame⟩ := word_append_inj (fun c => isAlphanum_of_mem_text)
    (fun c => isAlphanum_of_mem_text) hrest hrest' h
  exact ⟨text_injective (String.toList_inj.mp htext), hsame⟩

/-! ### Arguments and calls -/

namespace Argument

/-- A counter that is passed is written as it is. -/
theorem toList_text_var (v : Variable) : (var v).text.toList = v.text.toList := by
  rw [text]

/-- A call that is passed is written in parentheses, its function first. -/
theorem toList_text_nested (function : String) (args : List Argument) :
    (nested function args).text.toList =
      '(' :: (function.toList ++ ((listText args).toList ++ [')'])) := by
  simp [text]

/-- Each argument has got a comma in front of it. -/
theorem toList_listText_cons (arg : Argument) (rest : List Argument) :
    (listText (arg :: rest)).toList = ',' :: (arg.text.toList ++ (listText rest).toList) := by
  simp [listText]

/-- Behind an argument or a name there is a comma or a parenthesis, so its word ends there. -/
theorem wordEnd_listText (args : List Argument) (rest : List Char) :
    WordEnd Char.isAlphanum ((listText args).toList ++ ')' :: rest) ∧
      WordEnd isNamePart ((listText args).toList ++ ')' :: rest) := by
  cases args with
  | nil => exact ⟨wordEnd_cons rfl _, wordEnd_cons rfl _⟩
  | cons arg args =>
    rw [toList_listText_cons]
    exact ⟨wordEnd_cons rfl _, wordEnd_cons rfl _⟩

/-- No name in a list of names contains a comma or a parenthesis. -/
def PlainNames (names : List String) : Prop :=
  ∀ name ∈ names, ∀ c ∈ name.toList, isNamePart c = true

instance (names : List String) : Decidable (PlainNames names) :=
  decidable_of_iff ((names.all fun name => name.toList.all isNamePart) = true) (by
    simp only [List.all_eq_true, PlainNames])

mutual

/-- An argument in front of a text can be found again. -/
theorem text_append_inj : (a b : Argument) → PlainNames a.callees → PlainNames b.callees →
    {rest rest' : List Char} → WordEnd Char.isAlphanum rest → WordEnd Char.isAlphanum rest' →
    a.text.toList ++ rest = b.text.toList ++ rest' → a = b ∧ rest = rest'
  | .var v, .var w, _, _, _, _, hrest, hrest', h => by
    rw [toList_text_var, toList_text_var] at h
    obtain ⟨rfl, hsame⟩ := Variable.text_append_inj hrest hrest' h
    exact ⟨rfl, hsame⟩
  | .var v, .nested g bs, _, _, _, _, _, _, h => by
    rw [toList_text_var, toList_text_nested] at h
    exact absurd h (v.text_append_ne (by decide) _ _)
  | .nested f as, .var w, _, _, _, _, _, _, h => by
    rw [toList_text_var, toList_text_nested] at h
    exact absurd h.symm (w.text_append_ne (by decide) _ _)
  | .nested f as, .nested g bs, ha, hb, _, _, _, _, h => by
    rw [toList_text_nested, toList_text_nested, List.cons_append, List.cons_append,
      List.cons.injEq] at h
    simp only [List.append_assoc, List.singleton_append] at h
    -- The name ends before the first comma or before the parenthesis that closes the call.
    obtain ⟨hname, hlist⟩ := word_append_inj (ha f List.mem_cons_self) (hb g List.mem_cons_self)
      (wordEnd_listText as _).2 (wordEnd_listText bs _).2 h.2
    obtain ⟨rfl, hsame⟩ := listText_append_inj as bs
      (fun name hname => ha name (List.mem_cons_of_mem _ hname))
      (fun name hname => hb name (List.mem_cons_of_mem _ hname)) hlist
    obtain rfl := String.toList_inj.mp hname
    exact ⟨rfl, hsame⟩

/-- A list of arguments before the end of a call can be found again. -/
theorem listText_append_inj : (as bs : List Argument) → PlainNames (listCallees as) →
    PlainNames (listCallees bs) → {rest rest' : List Char} →
    (listText as).toList ++ ')' :: rest = (listText bs).toList ++ ')' :: rest' →
    as = bs ∧ rest = rest'
  | [], [], _, _, _, _, h => ⟨rfl, (List.cons.inj h).2⟩
  | [], b :: bs, _, _, _, _, h => by
    rw [toList_listText_cons] at h
    exact absurd (List.cons.inj h).1 (by decide)
  | a :: as, [], _, _, _, _, h => by
    rw [toList_listText_cons] at h
    exact absurd (List.cons.inj h).1 (by decide)
  | a :: as, b :: bs, ha, hb, _, _, h => by
    rw [toList_listText_cons, toList_listText_cons, List.cons_append, List.cons_append,
      List.cons.injEq, List.append_assoc, List.append_assoc] at h
    obtain ⟨rfl, hlist⟩ := text_append_inj a b
      (fun name hname => ha name (List.mem_append_left _ hname))
      (fun name hname => hb name (List.mem_append_left _ hname))
      (wordEnd_listText as _).1 (wordEnd_listText bs _).1 h.2
    obtain ⟨rfl, hsame⟩ := listText_append_inj as bs
      (fun name hname => ha name (List.mem_append_right _ hname))
      (fun name hname => hb name (List.mem_append_right _ hname)) hlist
    exact ⟨rfl, hsame⟩

end

end Argument

/-! ### The parts of a text -/

/-- What stands on the right of an assignment or of a comparison. -/
inductive Term where
  /-- A variable or a call. -/
  | arg (arg : Argument)
  /-- A numeral. -/
  | const (value : Value)

namespace Term

/-- The text of a term. -/
def chars : Term → List Char
  | arg a => a.text.toList
  | const value => value.toNat.repr.toList

/-- The functions that a term calls. -/
def callees : Term → List String
  | arg a => a.callees
  | const _ => []

/-- No argument starts like a numeral. -/
theorem chars_const_ne (value : Value) (a : Argument) (rest rest' : List Char) :
    (const value).chars ++ rest ≠ (arg a).chars ++ rest' := by
  intro h
  obtain ⟨c, digits, hdigits, hdigit⟩ := Text.exists_repr_eq value.toNat
  rw [chars, chars, hdigits] at h
  -- A numeral starts with a digit; a variable starts with a letter, and a call with a parenthesis.
  cases a with
  | var v =>
    obtain ⟨letter, hletter, tail, htail⟩ := v.exists_text_eq
    have hnot : ∀ letter ∈ ['x', 'y', 'z'], letter.isDigit = false := by simp
    rw [Argument.toList_text_var, htail] at h
    obtain rfl := (List.cons.inj h).1
    exact Bool.false_ne_true ((hnot c hletter).symm.trans hdigit)
  | nested function args =>
    rw [Argument.toList_text_nested] at h
    obtain rfl := (List.cons.inj h).1
    exact absurd hdigit (by decide)

/-- A term in front of a text can be found again. -/
theorem chars_append_inj {s t : Term} (hs : Argument.PlainNames s.callees)
    (ht : Argument.PlainNames t.callees) {rest rest' : List Char}
    (hrest : WordEnd Char.isAlphanum rest) (hrest' : WordEnd Char.isAlphanum rest')
    (h : s.chars ++ rest = t.chars ++ rest') :
    s = t ∧ rest = rest' := by
  cases s with
  | arg a =>
    cases t with
    | arg b =>
      -- An argument ends where it ends in the longer text.
      obtain ⟨rfl, hsame⟩ := Argument.text_append_inj a b hs ht hrest hrest' h
      exact ⟨rfl, hsame⟩
    | const value => exact absurd h.symm (chars_const_ne value a _ _)
  | const value =>
    cases t with
    | arg b => exact absurd h (chars_const_ne value b _ _)
    | const other =>
      -- Both numerals end where the word ends.
      obtain ⟨hdigits, hsame⟩ := word_append_inj (fun c => Text.isAlphanum_of_mem_repr)
        (fun c => Text.isAlphanum_of_mem_repr) hrest hrest' h
      obtain rfl := UInt64.toNat_inj.mp (Text.eq_of_toList_repr_eq hdigits)
      exact ⟨rfl, hsame⟩

end Term

/-- How an assignment goes on behind its term. -/
inductive Ending where
  | nothing
  | plusOne
  | minusOne

/-- The text of an ending. -/
def Ending.chars : Ending → List Char
  | nothing => []
  | plusOne => [' ', '+', ' ', '1']
  | minusOne => [' ', '-', ' ', '1']

/-- An ending starts with a blank, if there is one, so that the word before it ends. -/
theorem Ending.wordEnd_chars (e : Ending) : WordEnd Char.isAlphanum e.chars := by
  cases e with
  | nothing => exact wordEnd_nil _
  | plusOne => exact wordEnd_cons rfl _
  | minusOne => exact wordEnd_cons rfl _

/-- The endings are different texts. -/
theorem Ending.chars_inj {e e' : Ending} (h : e.chars = e'.chars) : e = e' := by
  cases e <;> cases e' <;> simp [chars] at h ⊢

/-- The parts of the text of an instruction. -/
inductive Sentence where
  /-- An assignment. -/
  | sets (dst : Variable) (term : Term) (ending : Ending)
  /-- A jump without a condition. -/
  | goto (target : Label)
  /-- A jump where a counter is not zero. -/
  | unlessZero (v : Variable) (target : Label)
  /-- A jump where a counter equals a term. -/
  | ifEqual (v : Variable) (term : Term) (target : Label)

namespace Sentence

/-- The text that is made of the parts. -/
def chars : Sentence → List Char
  | sets dst term ending => dst.text.toList ++ ([' ', '←', ' '] ++ (term.chars ++ ending.chars))
  | goto target => ['G', 'O', 'T', 'O', ' '] ++ target.text.toList
  | unlessZero v target =>
    ['I', 'F', ' '] ++ (v.text.toList ++
      ([' ', '≠', ' ', '0', ' ', 'G', 'O', 'T', 'O', ' '] ++ target.text.toList))
  | ifEqual v term target =>
    ['I', 'F', ' '] ++ (v.text.toList ++ ([' ', '=', ' '] ++
      (term.chars ++ ([' ', 'G', 'O', 'T', 'O', ' '] ++ target.text.toList))))

/-- The functions that are named in a text. -/
def callees : Sentence → List String
  | sets _ term _ => term.callees
  | goto _ => []
  | unlessZero _ _ => []
  | ifEqual _ term _ => term.callees

end Sentence

/-- The parts of the text of an instruction. -/
def Instruction.sentence : Instruction → Sentence
  | neutral v => .sets v (.arg (.var v)) .nothing
  | increase v => .sets v (.arg (.var v)) .plusOne
  | decrease v => .sets v (.arg (.var v)) .minusOne
  | jumpNotZero v target => .unlessZero v target
  | zero v => .sets v (.const 0) .nothing
  | assign dst src => .sets dst (.arg (.var src)) .nothing
  | assignConstant v value => .sets v (.const value) .nothing
  | goto target => .goto target
  | jumpZero v target => .ifEqual v (.const 0) target
  | jumpEqual v (.var w) target => .ifEqual v (.arg (.var w)) target
  | jumpEqual v (.const value) target => .ifEqual v (.const value) target
  | quote dst call => .sets dst (.arg (.nested call.function call.args)) .nothing
  | jumpEqualCall v call target => .ifEqual v (.arg (.nested call.function call.args)) target

/-- The text of an instruction is made of its parts. -/
theorem Instruction.toList_text (i : Instruction) : i.text.toList = i.sentence.chars := by
  cases i with
  | jumpEqual v rhs target =>
    -- The second operand is written like an argument, or it is a numeral.
    cases rhs <;> simp [text, sentence, Sentence.chars, Term.chars, Operand.text, Argument.text]
  | quote dst call =>
    simp [text, sentence, Sentence.chars, Term.chars, Ending.chars, Call.text, Argument.text]
  | jumpEqualCall v call target =>
    simp [text, sentence, Sentence.chars, Term.chars, Call.text, Argument.text]
  | _ => simp [text, sentence, Sentence.chars, Term.chars, Ending.chars, Argument.text]

/-- The functions that are named in the text are those that are called. -/
theorem Instruction.callees_sentence (i : Instruction) : i.sentence.callees = i.callees := by
  cases i with
  | jumpEqual v rhs target =>
    -- A counter and a numeral name no function.
    cases rhs with
    | var w => exact Argument.callees.eq_1 w
    | const value => rfl
  | quote dst call => exact Argument.callees.eq_2 ..
  | jumpEqualCall v call target => exact Argument.callees.eq_2 ..
  | _ => simp [sentence, Sentence.callees, Term.callees, callees, call?, Argument.callees]

namespace Sentence

/-! The four forms of texts are told apart by their first characters, or by what follows the
variable of a condition. -/

/-- An assignment starts with a variable, and a jump with a word that is none. -/
theorem chars_sets_ne_jump (dst : Variable) (term : Term) (ending : Ending) {c : Char}
    (hc : c ∉ ['x', 'y', 'z']) (tail : List Char) : (sets dst term ending).chars ≠ c :: tail :=
  dst.text_append_ne hc _ _

/-- The two conditions differ behind their variables. -/
theorem chars_unlessZero_ne_ifEqual (v w : Variable) (term : Term) (target target' : Label) :
    (unlessZero v target).chars ≠ (ifEqual w term target').chars := by
  intro h
  -- Behind the variable and a blank stands the sign of the comparison.
  have hcondition := Variable.text_append_inj (wordEnd_append rfl _) (wordEnd_append rfl _)
    (List.append_cancel_left h)
  exact absurd (List.cons.inj (List.cons.inj hcondition.2).2).1 (by decide)

/-- The parts of a text are determined by the text. -/
theorem chars_inj {s t : Sentence} (hs : Argument.PlainNames s.callees)
    (ht : Argument.PlainNames t.callees) (h : s.chars = t.chars) : s = t := by
  have label : ∀ {x y : Label}, x.text.toList = y.text.toList → x = y := fun hxy =>
    Label.text_injective (String.toList_inj.mp hxy)
  cases s with
  | sets dst term ending =>
    cases t with
    | sets dst' term' ending' =>
      -- A blank stands before the arrow, and nothing or a blank behind the term.
      obtain ⟨rfl, hright⟩ := Variable.text_append_inj (wordEnd_append rfl _)
        (wordEnd_append rfl _) h
      obtain ⟨rfl, hending⟩ := Term.chars_append_inj hs ht ending.wordEnd_chars
        ending'.wordEnd_chars (List.append_cancel_left hright)
      rw [Ending.chars_inj hending]
    | goto target => exact absurd h (chars_sets_ne_jump dst term ending (by decide) _)
    | unlessZero v target => exact absurd h (chars_sets_ne_jump dst term ending (by decide) _)
    | ifEqual v term' target => exact absurd h (chars_sets_ne_jump dst term ending (by decide) _)
  | goto target =>
    cases t with
    | sets dst term ending => exact absurd h.symm (chars_sets_ne_jump dst term ending (by decide) _)
    | goto target' => rw [label (List.append_cancel_left h)]
    | unlessZero v target' => exact absurd (List.cons.inj h).1 (by decide)
    | ifEqual v term target' => exact absurd (List.cons.inj h).1 (by decide)
  | unlessZero v target =>
    cases t with
    | sets dst term ending => exact absurd h.symm (chars_sets_ne_jump dst term ending (by decide) _)
    | goto target' => exact absurd (List.cons.inj h).1 (by decide)
    | unlessZero w target' =>
      obtain ⟨rfl, hrest⟩ := Variable.text_append_inj (wordEnd_append rfl _) (wordEnd_append rfl _)
        (List.append_cancel_left h)
      rw [label (List.append_cancel_left hrest)]
    | ifEqual w term target' => exact absurd h (chars_unlessZero_ne_ifEqual v w term target target')
  | ifEqual v term target =>
    cases t with
    | sets dst term' ending =>
      exact absurd h.symm (chars_sets_ne_jump dst term' ending (by decide) _)
    | goto target' => exact absurd (List.cons.inj h).1 (by decide)
    | unlessZero w target' =>
      exact absurd h.symm (chars_unlessZero_ne_ifEqual w v term target' target)
    | ifEqual w term' target' =>
      -- Behind the variable stands the sign of the comparison, and a blank behind the term.
      obtain ⟨rfl, hright⟩ := Variable.text_append_inj (wordEnd_append rfl _) (wordEnd_append rfl _)
        (List.append_cancel_left h)
      obtain ⟨rfl, hrest⟩ := Term.chars_append_inj hs ht (wordEnd_append rfl _)
        (wordEnd_append rfl _) (List.append_cancel_left hright)
      rw [label (List.append_cancel_left hrest)]

end Sentence

/-! ### Instructions -/

namespace Instruction

/-- No function that is called, at any depth, has a comma or a parenthesis in its name. -/
def PlainNames (i : Instruction) : Prop := Argument.PlainNames i.callees

instance (i : Instruction) : Decidable i.PlainNames :=
  inferInstanceAs (Decidable (Argument.PlainNames i.callees))

/-- So the names in the text are plain as well. -/
theorem PlainNames.sentence {i : Instruction} (h : i.PlainNames) :
    Argument.PlainNames i.sentence.callees := by
  rwa [callees_sentence]

/-- An instruction says in a shorter way what another one says as well. -/
inductive Abbreviates : Instruction → Instruction → Prop where
  | neutral (v : Variable) : Abbreviates (.neutral v) (.assign v v)
  | zero (v : Variable) : Abbreviates (.zero v) (.assignConstant v 0)
  | jumpZero (v : Variable) (target : Label) :
    Abbreviates (.jumpZero v target) (.jumpEqual v (.const 0) target)

/-- The instruction without abbreviations. -/
def spelledOut : Instruction → Instruction
  | neutral v => assign v v
  | zero v => assignConstant v 0
  | jumpZero v target => jumpEqual v (.const 0) target
  | i => i

/-- An instruction is spelled out already, or it is an abbreviation. -/
theorem spelledOut_eq_or (i : Instruction) : i = i.spelledOut ∨ i.Abbreviates i.spelledOut := by
  cases i with
  | neutral v => exact .inr (.neutral v)
  | zero v => exact .inr (.zero v)
  | jumpZero v target => exact .inr (.jumpZero v target)
  | _ => exact .inl rfl

/-- Only one instruction is an abbreviation of a given one. -/
theorem Abbreviates.unique {i j k : Instruction} (hi : i.Abbreviates k) (hj : j.Abbreviates k) :
    i = j := by
  cases hi <;> cases hj <;> rfl

end Instruction

/-- The instruction that has these parts and is not an abbreviation. -/
def Sentence.instruction : Sentence → Instruction
  | sets dst (.arg (.var src)) .nothing => .assign dst src
  | sets dst (.arg (.nested function args)) .nothing => .quote dst ⟨function, args⟩
  | sets dst (.const value) .nothing => .assignConstant dst value
  | sets dst _ .plusOne => .increase dst
  | sets dst _ .minusOne => .decrease dst
  | goto target => .goto target
  | unlessZero v target => .jumpNotZero v target
  | ifEqual v (.arg (.var w)) target => .jumpEqual v (.var w) target
  | ifEqual v (.arg (.nested function args)) target => .jumpEqualCall v ⟨function, args⟩ target
  | ifEqual v (.const value) target => .jumpEqual v (.const value) target

namespace Instruction

/-- The parts of a text tell the instruction up to an abbreviation. -/
theorem instruction_sentence (i : Instruction) : i.sentence.instruction = i.spelledOut := by
  cases i with
  | jumpEqual v rhs target => cases rhs <;> rfl
  | _ => rfl

/-- Instructions with the same text are equal, or one of them abbreviates the other. -/
theorem eq_or_abbreviates {i j : Instruction} (hi : i.PlainNames) (hj : j.PlainNames)
    (h : i.text = j.text) : i = j ∨ i.Abbreviates j ∨ j.Abbreviates i := by
  -- The text determines the parts, and these determine the instruction that is spelled out.
  have hparts : i.sentence = j.sentence := by
    apply Sentence.chars_inj hi.sentence hj.sentence
    rw [← toList_text, ← toList_text, h]
  have hsame : i.spelledOut = j.spelledOut := by
    rw [← instruction_sentence, ← instruction_sentence, hparts]
  -- Each of the two may be an abbreviation; both together abbreviate the same instruction.
  rcases i.spelledOut_eq_or with hi | hi <;> rcases j.spelledOut_eq_or with hj | hj
  · exact .inl (hi.trans (hsame.trans hj.symm))
  · rw [← hsame, ← hi] at hj
    exact .inr (.inr hj)
  · rw [hsame, ← hj] at hi
    exact .inr (.inl hi)
  · rw [hsame] at hi
    exact .inl (hi.unique hj)

/-- An abbreviation has the text of what it abbreviates. -/
theorem Abbreviates.text_eq {i j : Instruction} (h : i.Abbreviates j) : i.text = j.text := by
  have hparts : i.sentence = j.sentence := by cases h <;> rfl
  rw [← String.toList_inj, toList_text, toList_text, hparts]

/-- Two executions come to the same end: both meet the same fault in the same state, or both run out
of fuel, or both go to the same place with the same contents of all counters. -/
abbrev SameOutcome (e e' : Evaluation Environment Flow) : Prop :=
  e.Alike (fun flow s flow' s' => flow = flow' ∧ s.get = s'.get) (fun s s' => s = s') e'

/-- An abbreviation does what it abbreviates. Only the cycles may differ, and a counter that is set
to its own value may become bound. -/
theorem Abbreviates.execute {i j : Instruction} (h : i.Abbreviates j) (evaluate : CallEvaluator)
    (env : Environment) : SameOutcome (i.execute evaluate env) (j.execute evaluate env) := by
  cases h with
  | neutral v =>
    refine .finished ⟨rfl, ?_⟩
    rw [Environment.get_charge, Environment.get_charge, Environment.get_set, Store.set_eq_self]
  | zero v =>
    refine .finished ⟨rfl, ?_⟩
    rw [Environment.get_charge, Environment.get_charge]
  | jumpZero v target =>
    refine .finished ⟨rfl, ?_⟩
    rw [Environment.get_charge, Environment.get_charge]

/-- The text of an instruction determines what it does. Two instructions with the same text are
equal, or they are one of three pairs of an abbreviation and what it abbreviates, if the names of
functions do not contain commas or parentheses. In any case they do the same, with every table of
functions and in every environment. -/
theorem text_determines {i j : Instruction} (hi : i.PlainNames) (hj : j.PlainNames)
    (h : i.text = j.text) :
    (i = j ∨ i.Abbreviates j ∨ j.Abbreviates i) ∧
      ∀ (table : FunctionTable) (fuel : Nat) (env : Environment),
        SameOutcome (i.execute (evaluateCall table fuel) env)
          (j.execute (evaluateCall table fuel) env) := by
  have hcases := eq_or_abbreviates hi hj h
  refine ⟨hcases, fun table fuel env => ?_⟩
  rcases hcases with rfl | habb | habb
  · exact Evaluation.Alike.refl (fun _ _ => ⟨rfl, rfl⟩) (fun _ => rfl) _
  · exact habb.execute _ env
  · exact (habb.execute _ env).symm.imp (fun _ _ _ _ hsame => ⟨hsame.1.symm, hsame.2.symm⟩)
      fun _ _ hsame => hsame.symm

/-- The instruction that does nothing has the text of an assignment of a counter to itself. It does
the same, although it costs nothing and the assignment costs four cycles. -/
theorem text_determines_neutral :
    (neutral .result).text = (assign .result .result).text ∧
    ∀ (table : FunctionTable) (fuel : Nat) (env : Environment),
      SameOutcome ((neutral .result).execute (evaluateCall table fuel) env)
        ((assign .result .result).execute (evaluateCall table fuel) env) := by
  have htext := (Abbreviates.neutral .result).text_eq
  exact ⟨htext, (text_determines (by decide) (by decide) htext).2⟩

/-- A comma in the name of a function may be taken for one between two arguments. -/
example : (quote .result ⟨"f,x1", []⟩).text = (quote .result ⟨"f", [.var (.input 1)]⟩).text ∧
    ¬ (quote .result ⟨"f,x1", []⟩).PlainNames := by
  constructor
  · rfl
  · decide

end Instruction

end CounterMachine
