/-
Pyoneer.Shared.JsonRoundTrip — what `json_serialize_ex` writes is read
back by `json_parse_ex`, whatever the options.

The text of a value is derived in the grammar of `JsonGrammar`, which
does not care for the white space that the options put into it. The
values are those without doubles, whose integers `json_int_t` holds
together with their negation and whose strings have no NUL, which is
written as it is and not read. Their strings and containers are shorter
than `UINT_MAX - 8`, as everywhere but in `JsonLimits`.
-/
import Pyoneer.Shared.JsonGrammar
import Pyoneer.Shared.JsonSerialize

namespace Pyoneer.Shared

open Grammar

/-! ## White space -/

/-- White space only. -/
def Blank (text : Bytes) : Prop := text.all isWhitespace = true

instance (text : Bytes) : Decidable (Blank text) :=
  inferInstanceAs (Decidable (text.all isWhitespace = true))

theorem Blank.append {a b : Bytes} (ha : Blank a) (hb : Blank b) : Blank (a ++ b) := by
  rw [Blank, List.all_append, ha, hb]
  rfl

/-- White space is skipped. -/
theorem Blank.ws {text : Bytes} (h : Blank text) (rest : Bytes) : Ws (text ++ rest) rest := by
  induction text with
  | nil => exact .nil rest
  | cons b text ih =>
    obtain ⟨hb, h⟩ := Bool.and_eq_true_iff.mp h
    exact .cons hb (ih h)

theorem Blank.ws_append {a b : Bytes} (ha : Blank a) (hb : Blank b) (rest : Bytes) :
    Ws (a ++ (b ++ rest)) rest := by
  rw [← List.append_assoc]
  exact (ha.append hb).ws rest

section Options

variable (opts : SerializeOpts)

/-- A line break with its indent is white space. -/
theorem printNewline_blank (indent : Nat) : Blank (printNewline opts indent) := by
  have hreplicate : ∀ b, isWhitespace b = true → Blank (List.replicate indent b) := by
    intro b hb
    rw [Blank, List.all_replicate, hb]
    split_ifs <;> rfl
  unfold printNewline
  by_cases hmode : opts.mode = .multiline
  · rw [if_pos hmode]
    refine Blank.append ?_ (hreplicate _ ?_)
    · split_ifs <;> decide
    · split_ifs <;> decide
  · rw [if_neg hmode]
    rfl

/-- White space follows an opening bracket, and comes before a closing
one. -/
theorem printOpening_blank (c : UInt8) : ∃ w, printOpening opts c = c :: w ∧ Blank w := by
  unfold printOpening
  split_ifs
  · exact ⟨[32], rfl, by decide⟩
  · exact ⟨[], rfl, by decide⟩

theorem printClosing_blank (c : UInt8) : ∃ w, printClosing opts c = w ++ [c] ∧ Blank w := by
  unfold printClosing
  split_ifs
  · exact ⟨[32], rfl, by decide⟩
  · exact ⟨[], rfl, by decide⟩

theorem printComma_blank : ∃ w, printComma opts = 44 :: w ∧ Blank w := by
  unfold printComma
  split_ifs
  · exact ⟨[32], rfl, by decide⟩
  · exact ⟨[], rfl, by decide⟩

theorem printName_blank (name : Bytes) :
    ∃ w, printName opts name = 34 :: (serializeString name ++ 34 :: 58 :: w) ∧ Blank w := by
  unfold printName
  split_ifs
  · exact ⟨[32], by rw [List.cons_append], by decide⟩
  · exact ⟨[], by rw [List.cons_append], by decide⟩

end Options

/-! ## Numbers and strings -/

theorem serializeNat_digits (n : Nat) : Digits (serializeNat n) ∧ serializeNat n ≠ [] ∧
    decimal (serializeNat n) = n ∧ ((serializeNat n).head? = some 48 → n = 0) := by
  induction n using Nat.strongRecOn with
  | _ n ih =>
    by_cases hn : 10 ≤ n
    · obtain ⟨hd, hne, hdec, hhead⟩ := ih (n / 10) (Nat.div_lt_self (by omega) (by decide))
      obtain ⟨-, hdigit, hvalue, -⟩ := digitByte_spec (n % 10) (Nat.mod_lt _ (by decide))
      rw [serializeNat_ge hn]
      refine ⟨Number.digits_snoc.mpr ⟨hd, hdigit⟩, by simp, ?_, fun h => ?_⟩
      · rw [Number.decimal_snoc, hdec, hvalue]
        omega
      · rw [List.head?_append_of_ne_nil _ hne] at h
        have := hhead h
        omega
    · obtain ⟨-, hdigit, hvalue, hzero⟩ := digitByte_spec n (by omega)
      rw [serializeNat_lt (by omega)]
      refine ⟨fun b hb => List.mem_singleton.mp hb ▸ hdigit, by simp, ?_, fun h => ?_⟩
      · simp [decimal, hvalue]
      · exact hzero.mp (Option.some.inj h)

theorem serializeNat_whole (n : Nat) : Whole (serializeNat n) := by
  obtain ⟨hd, -, -, hhead⟩ := serializeNat_digits n
  refine ⟨hd, fun h => ?_⟩
  rw [hhead h]
  rfl

/-- An integer that `json_int_t` holds is a number of the grammar. -/
theorem numeral_serializeInteger {n : Int} (h : n.natAbs ≤ jsonIntMax) :
    Numeral (serializeInteger n) (.integer n) := by
  obtain ⟨-, hne, hdec, -⟩ := serializeNat_digits n.natAbs
  have hwhole := serializeNat_whole n.natAbs
  refine .plain ?_
  unfold serializeInteger
  split_ifs with hneg
  · have hs := @Significand.integer true _ hwhole (.inl rfl) (by rwa [hdec])
    have hn : -((n.natAbs : Nat) : Int) = n := by omega
    rw [hdec, if_pos rfl, hn] at hs
    exact hs
  · have hs := @Significand.integer false _ hwhole (.inr hne) (by rwa [hdec])
    have hn : ((n.natAbs : Nat) : Int) = n := by omega
    rw [hdec, if_neg Bool.false_ne_true, hn] at hs
    exact hs

/-- Between quotes the grammar reads the string that was escaped. -/
theorem chars_serializeString {s : Bytes} (hs : (0 : UInt8) ∉ s) (rest : Bytes) :
    Chars (serializeString s ++ 34 :: rest) s rest := by
  induction s with
  | nil => exact .close rest
  | cons b s ih =>
    obtain ⟨hb, hs⟩ := List.ne_and_not_mem_of_not_mem_cons hs
    have hchars := ih hs
    have hcons : serializeString (b :: s) = serializeByte b ++ serializeString s := rfl
    rw [hcons, List.append_assoc]
    unfold serializeByte
    cases hc : escapeOf b with
    | some c =>
      obtain ⟨h0, hu, hback⟩ := escapeOf_spec hc
      have hescape := Chars.escape h0 hu hchars
      rwa [hback] at hescape
    | none =>
      refine .byte hb.symm ?_ ?_ hchars
      · rintro rfl
        cases hc
      · rintro rfl
        cases hc

/-! ## Values -/

mutual

/-- A value that survives the way through a text. -/
def Portable : JsonValue → Prop
  | .object es => PortableEntries es
  | .array vs => PortableValues vs
  | .integer n => n.natAbs ≤ jsonIntMax
  | .double _ => False
  | .string s => (0 : UInt8) ∉ s
  | .boolean _ | .null => True

def PortableEntry : Bytes × JsonValue → Prop
  | (name, v) => (0 : UInt8) ∉ name ∧ Portable v

def PortableEntries : List (Bytes × JsonValue) → Prop
  | [] => True
  | e :: es => PortableEntry e ∧ PortableEntries es

def PortableValues : List JsonValue → Prop
  | [] => True
  | v :: vs => Portable v ∧ PortableValues vs

end

section Derivation

variable (g : Bytes → Bytes) (opts : SerializeOpts)

/-- The brackets, the line breaks and the inside of a container. -/
theorem container_text (opening closing : UInt8) (inside rest : Bytes) (outer inner : Nat) :
    ∃ w w', Blank w ∧ Blank w' ∧
      printOpening opts opening ++ printNewline opts inner ++ inside ++ printNewline opts outer ++
        printClosing opts closing ++ rest = opening :: (w ++ (inside ++ (w' ++ closing :: rest))) := by
  obtain ⟨w, hopen, hw⟩ := printOpening_blank opts opening
  obtain ⟨w', hclose, hw'⟩ := printClosing_blank opts closing
  refine ⟨w ++ printNewline opts inner, printNewline opts outer ++ w',
    hw.append (printNewline_blank opts inner), (printNewline_blank opts outer).append hw', ?_⟩
  rw [hopen, hclose]
  simp only [List.append_assoc, List.cons_append, List.nil_append]

mutual

/-- The grammar reads the value from its text. -/
theorem value_printValue (indent : Nat) (rest : Bytes) : ∀ v : JsonValue, Portable v →
    Value (printValue g opts indent v ++ rest) v rest
  | .object [], _ => .object (.close (.nil _))
  | .object (e :: es), h => by
      obtain ⟨w, w', hw, hw', htext⟩ := container_text opts 123 125
        (printEntry g opts (indent + opts.indentSize) e ++
          printEntries g opts (indent + opts.indentSize) es) rest indent (indent + opts.indentSize)
      rw [printValue, List.append_assoc _ (printEntry ..), htext, List.append_assoc]
      refine .object (entries_printEntry _ e (hw.ws _) h.1 ?_)
      exact moreEntries_printEntries _ hw' es h.2
  | .array [], _ => .array (.close (.nil _))
  | .array (v :: vs), h => by
      obtain ⟨w, w', hw, hw', htext⟩ := container_text opts 91 93
        (printValue g opts (indent + opts.indentSize) v ++
          printValues g opts (indent + opts.indentSize) vs) rest indent (indent + opts.indentSize)
      rw [printValue, List.append_assoc _ (printValue ..), htext, List.append_assoc]
      refine .array (.value (hw.ws _) (value_printValue _ _ v h.1) ?_)
      exact moreValues_printValues _ hw' vs h.2
  | .integer n, h => .number rest (numeral_serializeInteger h)
  | .double _, h => h.elim
  | .string s, h => by
      rw [printValue, List.append_assoc]
      exact .string (chars_serializeString h rest)
  | .boolean true, _ => .true rest
  | .boolean false, _ => .false rest
  | .null, _ => .null rest

/-- An entry, where one may stand. -/
theorem entries_printEntry {text t rest : Bytes} {es : List (Bytes × JsonValue)} (indent : Nat) :
    ∀ e : Bytes × JsonValue, Ws text (printEntry g opts indent e ++ t) → PortableEntry e →
      MoreEntries t es rest → Entries text (e :: es) rest
  | (name, v), hws, h, hmore => by
      obtain ⟨w, hname, hw⟩ := printName_blank opts name
      rw [printEntry, hname] at hws
      simp only [List.append_assoc, List.cons_append] at hws
      exact .entry hws (chars_serializeString h.1 _) (.nil _) (hw.ws _)
        (value_printValue indent _ v h.2) hmore

theorem moreEntries_printEntries {w rest : Bytes} (indent : Nat) (hw : Blank w) :
    ∀ es : List (Bytes × JsonValue), PortableEntries es →
      MoreEntries (printEntries g opts indent es ++ (w ++ 125 :: rest)) es rest
  | [], _ => .close (hw.ws _)
  | e :: es, h => by
      obtain ⟨w', hcomma, hw'⟩ := printComma_blank opts
      rw [printEntries, hcomma]
      simp only [List.append_assoc, List.cons_append]
      refine .comma (.nil _) (entries_printEntry indent e
        (hw'.ws_append (printNewline_blank opts indent) _) h.1 ?_)
      exact moreEntries_printEntries indent hw es h.2

theorem moreValues_printValues {w rest : Bytes} (indent : Nat) (hw : Blank w) :
    ∀ vs : List JsonValue, PortableValues vs →
      MoreValues (printValues g opts indent vs ++ (w ++ 93 :: rest)) vs rest
  | [], _ => .close (hw.ws _)
  | v :: vs, h => by
      obtain ⟨w', hcomma, hw'⟩ := printComma_blank opts
      rw [printValues, hcomma]
      simp only [List.append_assoc, List.cons_append]
      exact .comma (.nil _) (.value (hw'.ws_append (printNewline_blank opts indent) _)
        (value_printValue indent _ v h.1) (moreValues_printValues indent hw vs h.2))

end

end Derivation

/-! ## The round trip -/

section RoundTrip

variable {g : Bytes → Bytes} {opts : SerializeOpts}

theorem skipBom_cons {b : UInt8} (hb : b ≠ 0xEF) (text : Bytes) :
    skipBom (b :: text) = b :: text := by
  unfold skipBom
  split
  · rename_i h
    exact absurd (List.cons.inj h).1 hb
  · rfl

theorem skipBom_serializeInteger (n : Int) : skipBom (serializeInteger n) = serializeInteger n := by
  unfold serializeInteger
  split_ifs
  · exact skipBom_cons (by decide) _
  · obtain ⟨hdigits, hne, -, -⟩ := serializeNat_digits n.natAbs
    cases htext : serializeNat n.natAbs with
    | nil => exact absurd htext hne
    | cons b text =>
      refine skipBom_cons ?_ text
      rintro rfl
      have := hdigits 0xEF (htext ▸ List.mem_cons_self ..)
      cases this

/-- A printed value begins with no byte order mark. -/
theorem skipBom_printValue {v : JsonValue} (h : Portable v) :
    skipBom (printValue g opts 0 v) = printValue g opts 0 v := by
  cases v with
  | object es =>
    cases es with
    | nil => rfl
    | cons e es =>
      obtain ⟨w, hopen, -⟩ := printOpening_blank opts 123
      rw [printValue, hopen]
      exact skipBom_cons (by decide) _
  | array vs =>
    cases vs with
    | nil => rfl
    | cons v vs =>
      obtain ⟨w, hopen, -⟩ := printOpening_blank opts 91
      rw [printValue, hopen]
      exact skipBom_cons (by decide) _
  | integer n =>
    rw [printValue]
    exact skipBom_serializeInteger n
  | double text => exact h.elim
  | string s => exact skipBom_cons (by decide) _
  | boolean b => cases b <;> rfl
  | null => rfl

/-- A printed value, as a whole text. -/
theorem jsonParse_printValue {v : JsonValue} (h : Portable v) :
    jsonParse (printValue g opts 0 v) = some v := by
  have hv := value_printValue g opts 0 [] v h
  rw [List.append_nil] at hv
  rw [jsonParse_eq_some_iff, skipBom_printValue h]
  exact .mk (.nil _) hv (.nil _) rfl

/-- What `json_serialize_ex` writes with any options is read back by
`json_parse_ex` as the value that it was. Strings, names and containers
are taken to be shorter than `UINT_MAX - 8` (`Short` of `JsonLimits`); a
longer one is written, and refused by the parser. -/
theorem jsonParse_jsonSerializeEx {mem : JsonMemory} {count : Nat → Nat} {a : Nat}
    {v : JsonValue} {as : List Nat} (hmem : Holds mem none a v as) (h0 : ∀ b ∈ as, count b = 0)
    (hv : Portable v) :
    ∃ visits text, (∀ fuel, visits ≤ fuel →
      jsonSerializeEx g opts mem count a fuel = some (text, count)) ∧ jsonParse text = some v := by
  obtain ⟨visits, hrun⟩ := jsonSerializeEx_eq g opts hmem h0
  exact ⟨visits, _, hrun, jsonParse_printValue hv⟩

theorem jsonParse_jsonSerializeEx_sample :
    ∃ visits text, (∀ fuel, visits ≤ fuel →
      jsonSerializeEx id defaultOpts sampleMemory (fun _ => 0) 0 fuel =
        some (text, fun _ => 0)) ∧
      jsonParse text =
        some (.object [(ascii "a", .array [.integer 1, .string (ascii "b")])]) :=
  jsonParse_jsonSerializeEx holds_sampleMemory (fun _ _ => rfl)
    ⟨⟨by decide, (by decide : (1 : Int).natAbs ≤ jsonIntMax),
      (by decide : (0 : UInt8) ∉ ascii "b"), trivial⟩, trivial⟩

end RoundTrip

end Pyoneer.Shared
