import CounterMachine.Json.InstructionCodec
import CounterMachine.Json.RunCodec
import CounterMachine.Proofs.Identifier.Grammar
import CounterMachine.Proofs.Json.Text
import CounterMachine.Proofs.Lowering.Uses

/-!
# Decoding undoes encoding

What is encoded for an instruction or a trace is decoded as that instruction or that trace, also
when it is written as text in between. So two of them never have the same text.

An index has 32 bits, and the place of a step 64; whatever has larger ones is encoded as well, but
it is not decoded.

## Key definitions

- `Faithful`: what is encoded for a value decodes to that value
- `Instruction.InRange`, `Trace.InRange`: indexes and places have their bits

## Key results

- `Faithful.decodeText_eq`, `Faithful.encodeText_inj`: what is faithful is so as text
- `Json.fields_object`: the fields of an encoded record
- `Instruction.faithful`, `Trace.faithful`: instructions and traces are faithful
- `decodeText_encodeText`: what is written for them is read back
-/

namespace CounterMachine

/-! ### Faithful values -/

/-- What is encoded for a value can be written and read, and decodes to that value. -/
structure Faithful {α : Type} [JsonCodec α] (a : α) : Prop where
  plain : (encode a).Plain
  decode_encode : decode (encode a) = .ok a

namespace Faithful

variable {α : Type} [JsonCodec α] {a b : α}

/-- The text that is written for a faithful value decodes to that value. -/
theorem decodeText_eq (h : Faithful a) : decodeText α (encodeText a) = .ok a := by
  rw [decodeText, encodeText, Json.parse?_compact h.plain]
  exact h.decode_encode

/-- Different faithful values have different texts. -/
theorem encodeText_inj (ha : Faithful a) (hb : Faithful b) (h : encodeText a = encodeText b) :
    a = b := by
  have hsame := ha.decodeText_eq
  rw [h, hb.decodeText_eq] at hsame
  exact (Except.ok.inj hsame).symm

end Faithful

/-! ### Lists and records -/

/-- A list is decoded item by item. -/
theorem mapM_map_eq_ok {α β γ ε : Type} {encode : α → γ} {decode : γ → Except ε β}
    (value : α → β) {list : List α} (h : ∀ a ∈ list, decode (encode a) = .ok (value a)) :
    (list.map encode).mapM decode = .ok (list.map value) := by
  induction list with
  | nil => rfl
  | cons a list ih =>
    rw [List.map_cons, List.mapM_cons, h a List.mem_cons_self,
      ih fun b hb => h b (List.mem_cons_of_mem _ hb)]
    rfl

namespace Json

/-- A text is a plain value. -/
@[simp] theorem plain_string (text : String) : (string text).Plain := .string text

/-- A natural number is a plain value: it is written without a point or an exponent. -/
@[simp] theorem plain_nat (n : Nat) : (nat n).Plain := .integer n

/-- A word is a plain value, as a number. -/
@[simp] theorem plain_word (w : UInt64) : (word w).Plain := .integer w.toNat

/-- An array is plain if and only if its items are. -/
@[simp] theorem plain_array_iff {items : List Json} :
    (array items).Plain ↔ ∀ item ∈ items, item.Plain := by
  constructor
  · rintro (_ | _ | _ | _ | h | _)
    exact h
  · exact .array

/-- A record is plain if and only if what its members hold is. -/
@[simp] theorem plain_object_iff {members : List (String × Json)} :
    (object members).Plain ↔ ∀ member ∈ members, member.2.Plain := by
  constructor
  · rintro (_ | _ | _ | _ | _ | h)
    exact h
  · exact .object

/-- A tag makes no difference to whether a value is plain. -/
@[simp] theorem plain_tag_iff {name : String} {content : Json} :
    (tag name content).Plain ↔ content.Plain := by
  simp [tag]

/-- An array is decoded as the list it was made of, if each of its items is decoded as the item it
was made of. -/
theorem asList_array {α : Type} {encode : α → Json} {decode : Json → Decoded α} {list : List α}
    (h : ∀ a ∈ list, decode (encode a) = .ok a) :
    (array (list.map encode)).asList decode = .ok list := by
  rw [asList, mapM_map_eq_ok id h, List.map_id]

/-- A number of 64 bits is decoded as a place. -/
theorem asSize_nat {n : Nat} (h : n < UInt64.size) : (nat n).asSize = .ok n := by
  -- Both bounds of the conversion are met.
  have hbounds : (0 : Int) ≤ n ∧ (n : Int) ≤ (UInt64.size - 1 : Nat) := by omega
  rw [nat, asSize, asNat, if_pos hbounds]
  rfl

/-- A word is decoded as that word. -/
theorem asWord_word (w : UInt64) : (word w).asWord = .ok w := by
  rw [word, asWord, asSize_nat w.toNat_lt_size]
  exact congrArg Except.ok (UInt64.ofNat_toNat (x := w))

/-- If no name is given twice, a member is the only one with its name. -/
theorem filter_name {members : List (String × Json)} (hnodup : (members.map Prod.fst).Nodup)
    {member : String × Json} (h : member ∈ members) :
    members.filter (·.1 == member.1) = [member] := by
  induction members with
  | nil => cases h
  | cons first members ih =>
    rw [List.map_cons, List.nodup_cons] at hnodup
    rcases List.mem_cons.mp h with rfl | h
    · -- The member comes first, and none of the others has got its name.
      have hnone : members.filter (·.1 == member.1) = [] := by
        apply List.filter_eq_nil_iff.mpr
        intro other hother hsame
        exact hnodup.1 (List.mem_map.mpr ⟨other, hother, eq_of_beq hsame⟩)
      rw [List.filter_cons, hnone, if_pos (beq_self_eq_true member.1)]
    · -- It comes later, so the first one has got another name.
      have hne : ¬ (first.1 == member.1) = true := by
        intro hsame
        exact hnodup.1 (List.mem_map.mpr ⟨member, h, (eq_of_beq hsame).symm⟩)
      rw [List.filter_cons, if_neg hne, ih hnodup.2 h]

/-- A record that is encoded with its fields in order has these fields. -/
theorem fields_object {members : List (String × Json)} {names : List String}
    (hnames : members.map Prod.fst = names) (hnodup : names.Nodup) :
    (object members).fields names = .ok (members.map fun m => some m.2) := by
  subst hnames
  apply mapM_map_eq_ok fun member : String × Json => some member.2
  intro member hmember
  rw [filter_name hnodup hmember]

section

variable {α β γ δ : Type} (first second third : String) {j k l : Json}
  {decodeFirst : Json → Decoded α} {decodeSecond : Json → Decoded β}
  {decodeThird : Json → Decoded γ} {a : α} {b : β} {c : γ}

/-- A record of one field is decoded by decoding the field. -/
theorem decode_record_one (build : α → δ) (hfirst : decodeFirst j = .ok a) :
    (do
      let fields ← (object [(first, j)]).fields [first]
      return build (← fieldAt fields 0 decodeFirst)) = (.ok (build a) : Decoded δ) := by
  have hfields : (object [(first, j)]).fields [first] = .ok [some j] :=
    fields_object rfl (List.pairwise_singleton _ first)
  rw [hfields]
  -- The fields are in the order of their names, so that each one is decoded by its own decoder.
  show (decodeFirst j).bind _ = _
  rw [hfirst]
  rfl

/-- A record of two fields is decoded by decoding each field. -/
theorem decode_record_two (build : α → β → δ) (hnodup : [first, second].Nodup)
    (hfirst : decodeFirst j = .ok a) (hsecond : decodeSecond k = .ok b) :
    (do
      let fields ← (object [(first, j), (second, k)]).fields [first, second]
      return build (← fieldAt fields 0 decodeFirst) (← fieldAt fields 1 decodeSecond)) =
        (.ok (build a b) : Decoded δ) := by
  have hfields : (object [(first, j), (second, k)]).fields [first, second] =
    .ok [some j, some k] := fields_object rfl hnodup
  rw [hfields]
  show (decodeFirst j).bind (fun _ => (decodeSecond k).bind _) = _
  rw [hfirst, hsecond]
  rfl

/-- A record of three fields is decoded by decoding each field. -/
theorem decode_record_three (build : α → β → γ → δ) (hnodup : [first, second, third].Nodup)
    (hfirst : decodeFirst j = .ok a) (hsecond : decodeSecond k = .ok b)
    (hthird : decodeThird l = .ok c) :
    (do
      let fields ← (object [(first, j), (second, k), (third, l)]).fields [first, second, third]
      return build (← fieldAt fields 0 decodeFirst) (← fieldAt fields 1 decodeSecond)
        (← fieldAt fields 2 decodeThird)) = (.ok (build a b c) : Decoded δ) := by
  have hfields : (object [(first, j), (second, k), (third, l)]).fields [first, second, third] =
    .ok [some j, some k, some l] := fields_object rfl hnodup
  rw [hfields]
  show (decodeFirst j).bind (fun _ => (decodeSecond k).bind fun _ => (decodeThird l).bind _) = _
  rw [hfirst, hsecond, hthird]
  rfl

end

/-- An item is nested at most as deep as the deepest one. -/
theorem depth_le_depthItems {items : List Json} {item : Json} (h : item ∈ items) :
    item.depth ≤ depthItems items := by
  induction items with
  | nil => cases h
  | cons first items ih =>
    rw [depthItems]
    -- The depth of a list is the larger one of its first item and the rest.
    rcases List.mem_cons.mp h with rfl | h
    · exact Nat.le_max_left _ _
    · exact (ih h).trans (Nat.le_max_right _ _)

end Json

/-! ### Variables, labels and operands -/

/-- A variable is encoded as a text. -/
@[simp] theorem Variable.plain_encode (v : Variable) : (encode v).Plain := .string v.text

/-- A label is encoded as a text. -/
@[simp] theorem Label.plain_encode (label : Label) : (encode label).Plain := .string label.text

/-- An operand is encoded as a tagged text or a tagged number. -/
@[simp] theorem Operand.plain_encode (rhs : Operand) : (encode rhs).Plain := by
  cases rhs with
  | var v => exact Json.plain_tag_iff.mpr v.plain_encode
  | const value => exact Json.plain_tag_iff.mpr (Json.plain_word value)

/-- A variable is decoded by the grammar that its text is written by. -/
theorem Variable.faithful {v : Variable} (h : v.InRange) : Faithful v where
  plain := v.plain_encode
  decode_encode := by
    simp only [decode, encode, Json.asString, bind, Except.bind, Variable.parse_text h]

/-- So is a label. -/
theorem Label.faithful {label : Label} (h : label.InRange) : Faithful label where
  plain := label.plain_encode
  decode_encode := by
    simp only [decode, encode, Json.asString, bind, Except.bind, Label.parse_text h]

/-- An operand is decoded by its tag. -/
theorem Operand.faithful {rhs : Operand} (h : ∀ v ∈ rhs.vars, v.InRange) : Faithful rhs where
  plain := rhs.plain_encode
  decode_encode := by
    -- A counter is decoded by its text, and a constant as a word.
    cases rhs with
    | var v =>
      show (decode (encode v)).bind _ = _
      rw [(Variable.faithful (h v (List.mem_singleton_self v))).decode_encode]
      rfl
    | const value =>
      show (Json.word value).asWord.bind _ = _
      rw [Json.asWord_word]
      rfl

/-! ### Arguments and calls -/

/-- What passes from the arguments of a call to the call is true of all arguments. -/
theorem Argument.nested_induction {motive : Argument → Prop} (var : ∀ v, motive (.var v))
    (nested : ∀ function args, (∀ arg ∈ args, motive arg) → motive (.nested function args))
    (arg : Argument) : motive arg := by
  apply @Argument.rec motive (fun args => ∀ arg ∈ args, motive arg) var nested
  · exact nofun
  · exact fun first rest hfirst hrest => List.forall_mem_cons.mpr ⟨hfirst, hrest⟩

/-- A list of arguments is encoded argument by argument. -/
theorem Argument.encodeList_eq_map (args : List Argument) :
    encodeList args = args.map Argument.encode := by
  induction args with
  | nil => rfl
  | cons arg rest ih => rw [encodeList, ih, List.map_cons]

/-- An argument is encoded as a plain value, however deep it is nested. -/
theorem Argument.plain_encode (arg : Argument) : arg.encode.Plain := by
  induction arg using nested_induction with
  | var v => simp [Argument.encode]
  | nested function args ih => simpa [Argument.encode, Json.ofCall, encodeList_eq_map] using ih

/-- A call is encoded as a record of its function and its arguments. -/
@[simp] theorem Call.plain_encode (call : Call) : (encode call).Plain := by
  show (Json.ofCall call.function (Argument.encodeList call.args)).Plain
  rw [Argument.encodeList_eq_map]
  simpa [Json.ofCall] using fun arg _ => arg.plain_encode

/-- A tag adds one level. -/
theorem Json.depth_tag (name : String) (content : Json) :
    (Json.tag name content).depth = content.depth + 1 := by
  simp only [tag, depth, depthMembers]
  omega

/-- A call adds two levels to its arguments: the record and the array in it. -/
theorem Json.depth_ofCall (function : String) (args : List Json) :
    (Json.ofCall function args).depth = depthItems args + 2 := by
  simp only [ofCall, depth, depthMembers]
  omega

/-- An argument is decoded if its nesting is below the bound. -/
theorem Argument.decodeWithin_encode {arg : Argument} (h : ∀ v ∈ arg.vars, v.InRange)
    {depth : Nat} (hdepth : arg.encode.depth < depth) :
    decodeWithin depth arg.encode = .ok arg := by
  induction arg using nested_induction generalizing depth with
  | var v =>
    obtain ⟨depth, rfl⟩ := Nat.exists_eq_succ_of_ne_zero (n := depth) (by omega)
    show (JsonCodec.decode (JsonCodec.encode v)).bind _ = _
    rw [(Variable.faithful (h v (List.mem_singleton_self v))).decode_encode]
    rfl
  | nested function args ih =>
    obtain ⟨depth, rfl⟩ := Nat.exists_eq_succ_of_ne_zero (n := depth) (by omega)
    -- Each argument is nested three levels less deep than the call, so one level less is enough.
    rw [Argument.encode, encodeList_eq_map] at hdepth ⊢
    have hargs : ∀ arg ∈ args, decodeWithin depth arg.encode = .ok arg := by
      intro arg harg
      have hle := Json.depth_le_depthItems (List.mem_map_of_mem (f := Argument.encode) harg)
      apply ih arg harg fun v hv => h v (mem_listVars.mpr ⟨arg, harg, hv⟩)
      rw [Json.depth_tag, Json.depth_ofCall] at hdepth
      omega
    have hcall (call : Json) : decodeWithin (depth + 1) (.tag "Call" call) = (do
        let fields ← call.fields callFields
        return .nested (← fieldAt fields 0 Json.asString)
          (← fieldAt fields 1 (Json.asList (decodeWithin depth)))) := rfl
    exact (hcall _).trans (Json.decode_record_two "function" "args" Argument.nested (by decide) rfl
      (Json.asList_array hargs))

/-- The bound of the decoder is above the nesting of every argument that it is given. -/
theorem Argument.decode_encode {arg : Argument} (h : ∀ v ∈ arg.vars, v.InRange) :
    JsonCodec.decode (JsonCodec.encode arg) = .ok arg :=
  decodeWithin_encode h (Nat.lt_succ_self _)

/-- A call is decoded with its arguments. -/
theorem Call.faithful {call : Call} (h : ∀ v ∈ call.vars, v.InRange) : Faithful call where
  plain := call.plain_encode
  decode_encode := by
    have hargs := Json.asList_array fun arg harg =>
      Argument.decode_encode fun v hv => h v (mem_listVars.mpr ⟨arg, harg, hv⟩)
    show decode (Json.ofCall call.function (Argument.encodeList call.args)) = _
    rw [Argument.encodeList_eq_map]
    exact Json.decode_record_two "function" "args" Call.mk (by decide) rfl hargs

/-! ### Instructions -/

namespace Instruction

/-- The indexes of the counters and of the label have 32 bits. -/
def InRange (i : Instruction) : Prop :=
  (∀ v ∈ i.vars, v.InRange) ∧ ∀ target ∈ i.target?, target.InRange

/-- An instruction is encoded as a plain value. -/
theorem plain_encode (i : Instruction) : i.encode.Plain := by
  cases i <;> simp [encode, encodeVar, encodeJump]

/-- The instructions that have got one counter are decoded alike. -/
theorem decode_encodeVar {v : Variable} (hv : v.InRange) (build : Variable → Instruction) :
    decodeVar build (.object [("var", JsonCodec.encode v)]) = .ok (build v) :=
  Json.decode_record_one "var" build (Variable.faithful hv).decode_encode

/-- So are the jumps that test a counter for zero. -/
theorem decode_encodeJump {v : Variable} (hv : v.InRange) {target : Label}
    (htarget : target.InRange) (build : Variable → Label → Instruction) :
    decodeJump build (.object [("var", JsonCodec.encode v), ("target", JsonCodec.encode target)]) =
      .ok (build v target) :=
  Json.decode_record_two "var" "target" build (by decide) (Variable.faithful hv).decode_encode
    (Label.faithful htarget).decode_encode

/-- Every instruction is decoded by its tag and its fields. -/
theorem decode_encode {i : Instruction} (h : i.InRange) : decode i.encode = .ok i := by
  have hvar : ∀ v ∈ i.vars, JsonCodec.decode (JsonCodec.encode v) = .ok v := fun v hv =>
    (Variable.faithful (h.1 v hv)).decode_encode
  have hlabel : ∀ x ∈ i.target?, JsonCodec.decode (JsonCodec.encode x) = .ok x := fun x hx =>
    (Label.faithful (h.2 x hx)).decode_encode
  -- The variants have got different tags, so each is decoded by its own list of fields.
  cases i with
  | neutral v => exact decode_encodeVar (h.1 v List.mem_cons_self) neutral
  | increase v => exact decode_encodeVar (h.1 v List.mem_cons_self) increase
  | decrease v => exact decode_encodeVar (h.1 v List.mem_cons_self) decrease
  | zero v => exact decode_encodeVar (h.1 v List.mem_cons_self) zero
  | jumpNotZero v target =>
    exact decode_encodeJump (h.1 v List.mem_cons_self) (h.2 target rfl) jumpNotZero
  | jumpZero v target =>
    exact decode_encodeJump (h.1 v List.mem_cons_self) (h.2 target rfl) jumpZero
  | assign dst src =>
    exact Json.decode_record_two "dst" "src" assign (by decide) (hvar dst (by simp [vars]))
      (hvar src (by simp [vars]))
  | assignConstant v value =>
    exact Json.decode_record_two "var" "value" assignConstant (by decide)
      (hvar v (by simp [vars])) (Json.asWord_word value)
  | goto target => exact Json.decode_record_one "target" goto (hlabel target rfl)
  | jumpEqual v rhs target =>
    have hrhs := Operand.faithful fun w hw => h.1 w (List.mem_cons_of_mem v hw)
    exact Json.decode_record_three "var" "rhs" "target" jumpEqual (by decide)
      (hvar v (by simp [vars])) hrhs.decode_encode (hlabel target rfl)
  | quote dst call =>
    have hcall := Call.faithful fun w hw => h.1 w (List.mem_cons_of_mem dst hw)
    exact Json.decode_record_two "dst" "call" quote (by decide) (hvar dst (by simp [vars]))
      hcall.decode_encode
  | jumpEqualCall v call target =>
    have hcall := Call.faithful fun w hw => h.1 w (List.mem_cons_of_mem v hw)
    exact Json.decode_record_three "var" "call" "target" jumpEqualCall (by decide)
      (hvar v (by simp [vars])) hcall.decode_encode (hlabel target rfl)

/-- An instruction is faithful if its indexes have 32 bits. -/
theorem faithful {i : Instruction} (h : i.InRange) : Faithful i where
  plain := i.plain_encode
  decode_encode := decode_encode h

end Instruction

/-! ### Traces -/

/-- Bindings are made again of the pairs that they list. -/
theorem Bindings.ofPairs_toList (b : Bindings) : ofPairs b.toList = b := by
  have hlist : ofPairs b.toList = Std.ExtTreeMap.ofList b.toList :=
    Std.ExtTreeMap.ofList_eq_foldl.symm
  rw [hlist]
  apply Std.ExtTreeMap.ext_getElem?
  intro v
  -- No variable is listed twice, so no pair takes the place of another.
  cases hv : b[v]? with
  | some value =>
    exact Std.ExtTreeMap.getElem?_ofList_of_mem Std.ReflCmp.compare_self
      Std.ExtTreeMap.distinct_keys_toList (Std.ExtTreeMap.mem_toList_iff_getElem?_eq_some.mpr hv)
  | none =>
    apply Std.ExtTreeMap.getElem?_ofList_of_contains_eq_false
    rw [Bool.eq_false_iff, Ne, List.contains_iff_mem, List.mem_map]
    rintro ⟨pair, hpair, rfl⟩
    rw [Std.ExtTreeMap.mem_toList_iff_getElem?_eq_some.mp hpair] at hv
    cases hv

/-- Bindings are encoded as a record with a member for each counter that is bound. -/
theorem Bindings.faithful {b : Bindings} (h : ∀ v ∈ b, v.InRange) : Faithful b where
  plain := by
    apply Json.plain_object_iff.mpr
    intro member hmember
    obtain ⟨pair, -, rfl⟩ := List.mem_map.mp hmember
    exact Json.plain_word pair.2
  decode_encode := by
    -- The name of a member is a variable again, so it is decoded like one.
    show Except.bind (List.mapM _ (b.toList.map fun pair =>
      (pair.1.text, Json.word pair.2))) _ = _
    rw [mapM_map_eq_ok id]
    · -- Taken together, the members are the pairs that are listed.
      rw [List.map_id]
      exact congrArg Except.ok b.ofPairs_toList
    · -- Each member is decoded as the pair that it was made of.
      intro pair hpair
      have hget : b[pair.1]? = some pair.2 :=
        Std.ExtTreeMap.mem_toList_iff_getElem?_eq_some.mp hpair
      have hmem : pair.1 ∈ b := by
        rw [Std.ExtTreeMap.mem_iff_isSome_getElem?, hget]
        rfl
      show (decode (encode pair.1)).bind (fun _ => (Json.word pair.2).asWord.bind _) = _
      rw [(Variable.faithful (h pair.1 hmem)).decode_encode, Json.asWord_word]
      rfl

/-- The place of a step has 64 bits, and the indexes of its counters have 32. -/
def TraceStep.InRange (step : TraceStep) : Prop :=
  step.index < UInt64.size ∧ ∀ v ∈ step.snapshot, v.InRange

/-- A step of a trace is a record of its place and its bindings. -/
theorem TraceStep.faithful {step : TraceStep} (h : step.InRange) : Faithful step where
  plain := by
    show (Json.object [("index", .nat step.index), ("snapshot", encode step.snapshot)]).Plain
    simpa using (Bindings.faithful h.2).plain
  decode_encode :=
    Json.decode_record_two "index" "snapshot" TraceStep.mk (by decide) (Json.asSize_nat h.1)
      (Bindings.faithful h.2).decode_encode

/-- All steps of a trace are in range. -/
def Trace.InRange (t : Trace) : Prop := ∀ step ∈ t.steps, step.InRange

/-- A trace is a record of its steps. -/
theorem Trace.faithful {t : Trace} (h : t.InRange) : Faithful t where
  plain := by
    show (Json.object [("steps", .array (t.steps.map encode))]).Plain
    simpa using fun step hstep => (TraceStep.faithful (h step hstep)).plain
  decode_encode :=
    Json.decode_record_one "steps" Trace.mk
      (Json.asList_array fun step hstep => (TraceStep.faithful (h step hstep)).decode_encode)

/-- Decoding undoes encoding, for instructions and for traces. What is written for one of them is
read back as the same one, so what is written for two of them is never the same. -/
theorem decodeText_encodeText :
    (∀ i : Instruction, i.InRange → decodeText Instruction (encodeText i) = .ok i) ∧
      (∀ t : Trace, t.InRange → decodeText Trace (encodeText t) = .ok t) ∧
      (∀ i j : Instruction, i.InRange → j.InRange → encodeText i = encodeText j → i = j) ∧
      ∀ t u : Trace, t.InRange → u.InRange → encodeText t = encodeText u → t = u := by
  refine ⟨?_, ?_, ?_, ?_⟩
  · intro i hi
    exact (Instruction.faithful hi).decodeText_eq
  · intro t ht
    exact (Trace.faithful ht).decodeText_eq
  · intro i j hi hj
    exact (Instruction.faithful hi).encodeText_inj (Instruction.faithful hj)
  · intro t u ht hu
    exact (Trace.faithful ht).encodeText_inj (Trace.faithful hu)

/-- A call whose name is made of characters that are escaped, and a trace with the largest place,
index and value. Two instructions have different texts although they are listed as the same one. -/
theorem decodeText_encodeText_largest :
    let i : Instruction := .jumpEqualCall .result
      ⟨"\"\\\n\x01", [.nested "é" [.var (.input 4294967295)], .var .result]⟩ .exit
    let t : Trace := ⟨[⟨18446744073709551615,
      .ofPairs [(.work 4294967295, 18446744073709551615), (.result, 0)]⟩]⟩
    decodeText Instruction (encodeText i) = .ok i ∧ decodeText Trace (encodeText t) = .ok t ∧
      encodeText (Instruction.quote .result ⟨"f,x1", []⟩) ≠
        encodeText (Instruction.quote .result ⟨"f", [.var (.input 1)]⟩) ∧
      encodeText (Trace.mk []) ≠ encodeText t := by
  intro i t
  have hi : i.InRange := ⟨by decide, by decide⟩
  have ht : t.InRange := by
    intro step hstep
    obtain rfl := List.mem_singleton.mp hstep
    refine ⟨by decide, fun v hv => ?_⟩
    have hkeys : v = .work 4294967295 ∨ v = .result := by
      simpa using (Bindings.mem_bindAll ∅ _ v).mp hv
    rcases hkeys with rfl | rfl <;> decide
  have hnone : (Trace.mk []).InRange := nofun
  refine ⟨decodeText_encodeText.1 i hi, decodeText_encodeText.2.1 t ht, fun h => ?_, fun h => ?_⟩
  · have hsame := decodeText_encodeText.2.2.1 _ _ ⟨by decide, by decide⟩ ⟨by decide, by decide⟩ h
    exact absurd hsame (by decide)
  · have hsame := decodeText_encodeText.2.2.2 _ t hnone ht h
    exact absurd (congrArg Trace.size hsame) (show 0 ≠ 1 by decide)

end CounterMachine
