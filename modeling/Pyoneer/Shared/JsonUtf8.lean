/-
Pyoneer.Shared.JsonUtf8 — `json_parse_ex` on a text in UTF-8.

The parser goes byte by byte and knows characters only from `\u`
escapes, which it encodes itself; every other byte of a string is
copied. A backslash may stand before any byte, also before the first of
several that make a character. `jsonParse_utf8` says that nevertheless
the strings and the names of the value are UTF-8 where the text is: no
character is cut in two.

The two halves of a surrogate pair are put together by `|`, where the
encoding asks for `+`; `pairUchar_eq` says what that gives. It is a
character in any case.
-/
import Pyoneer.Lib.Utf8
import Pyoneer.Shared.JsonGrammar

namespace Pyoneer.Shared

open Lib

/-! ## Escapes -/

theorem or_eq_add {k a x : Nat} (h : x < 2 ^ k) : 2 ^ k * a ||| x = 2 ^ k * a + x :=
  (Nat.two_pow_add_eq_or_of_lt h a).symm

/-- The bytes of an escape, as numbers. -/
theorem encodeUchar_toNat_eq {u : Nat} (hu : u < 0x110000) : (encodeUchar u).map UInt8.toNat =
    if u ≤ 0x7F then [u]
    else if u ≤ 0x7FF then [u / 64 + 0xC0, u % 64 + 0x80]
    else if u ≤ 0xFFFF then [u / 4096 + 0xE0, u / 64 % 64 + 0x80, u % 64 + 0x80]
    else [u / 262144 + 0xF0, u / 4096 % 64 + 0x80, u / 64 % 64 + 0x80, u % 64 + 0x80] := by
  have htail : ∀ x : Nat, (0x80 ||| x &&& 0x3F).toUInt8.toNat = x % 64 + 0x80 := by
    intro x
    have hand : x &&& 0x3F = x % 64 := Nat.and_two_pow_sub_one_eq_mod x 6
    have hor : 0x80 ||| x % 64 = 0x80 + x % 64 := @or_eq_add 6 2 (x % 64) (Nat.mod_lt _ (by decide))
    rw [hand, hor, Nat.toUInt8_eq, UInt8.toNat_ofNat']
    omega
  have hhead : ∀ k a x : Nat, x < 2 ^ k → 2 ^ k * a + x < 256 →
      (2 ^ k * a ||| x).toUInt8.toNat = 2 ^ k * a + x := by
    intro k a x hx hlt
    rw [or_eq_add hx, Nat.toUInt8_eq, UInt8.toNat_ofNat', Nat.mod_eq_of_lt hlt]
  unfold encodeUchar
  split_ifs with h1 h2 h3
  · rw [List.map_singleton, Nat.toUInt8_eq, UInt8.toNat_ofNat', Nat.mod_eq_of_lt (by omega)]
  · have h := hhead 5 6 (u >>> 6) (by rw [Nat.shiftRight_eq_div_pow]; omega)
      (by rw [Nat.shiftRight_eq_div_pow]; omega)
    have hc : (2 : Nat) ^ 5 * 6 = 0xC0 := rfl
    rw [hc, Nat.shiftRight_eq_div_pow] at h
    simp only [List.map_cons, List.map_nil, htail, Nat.shiftRight_eq_div_pow, h, List.cons.injEq,
      and_true]
    omega
  · have h := hhead 4 14 (u >>> 12) (by rw [Nat.shiftRight_eq_div_pow]; omega)
      (by rw [Nat.shiftRight_eq_div_pow]; omega)
    have hc : (2 : Nat) ^ 4 * 14 = 0xE0 := rfl
    rw [hc, Nat.shiftRight_eq_div_pow] at h
    simp only [List.map_cons, List.map_nil, htail, Nat.shiftRight_eq_div_pow, h, List.cons.injEq,
      and_true]
    omega
  · have h := hhead 3 30 (u >>> 18) (by rw [Nat.shiftRight_eq_div_pow]; omega)
      (by rw [Nat.shiftRight_eq_div_pow]; omega)
    have hc : (2 : Nat) ^ 3 * 30 = 0xF0 := rfl
    rw [hc, Nat.shiftRight_eq_div_pow] at h
    simp only [List.map_cons, List.map_nil, htail, Nat.shiftRight_eq_div_pow, h, List.cons.injEq,
      and_true]
    omega

/-- The bytes of an escape are those of the character. -/
theorem encodeUchar_eq (c : Char) : encodeUchar c.toNat = String.utf8EncodeChar c := by
  have hinj : Function.Injective (List.map UInt8.toNat) :=
    List.map_injective_iff.mpr fun _ _ => UInt8.toNat_inj.mp
  exact hinj ((encodeUchar_toNat_eq (char_toNat_lt c)).trans (encode_toNat c).symm)

theorem isUtf8_encodeUchar {u : Nat} (hu : u.isValidChar) : IsUtf8 (encodeUchar u) := by
  have hchar := IsUtf8.char (Char.ofNat u)
  rwa [← encodeUchar_eq, char_toNat_ofNat hu] at hchar

/-- What two halves give: the twentieth bit that `+` would carry is lost
where the planes of the first half have one in its place. -/
theorem pairUchar_eq (u u' : Nat) :
    let v := u % 1024 * 1024 + u' % 1024
    pairUchar u u' = if v / 65536 % 2 = 1 then v else 65536 + v := by
  have hbits : ∀ w < 1024, 64 ||| w = if w / 64 % 2 = 1 then w else 64 + w := by decide +kernel
  have hlow : ∀ x : Nat, x &&& 0x3FF = x % 1024 := fun x => Nat.and_two_pow_sub_one_eq_mod x 10
  have hhigh : (0x10000 ||| u % 1024 * 1024) = 1024 * (64 ||| u % 1024) := by
    have hshift := Nat.shiftLeft_or_distrib (i := 10) (a := 64) (b := u % 1024)
    simp only [Nat.shiftLeft_eq] at hshift
    exact hshift.symm.trans (Nat.mul_comm ..)
  have hor := @or_eq_add 10 (64 ||| u % 1024) (u' % 1024) (Nat.mod_lt _ (by decide))
  have hw := hbits (u % 1024) (Nat.mod_lt _ (by decide))
  simp only [pairUchar, hlow, Nat.shiftLeft_eq]
  have hpow : (2 : Nat) ^ 10 = 1024 := rfl
  rw [hpow] at hor ⊢
  rw [hhigh, hor, hw]
  have hmod := Nat.mod_lt u' (show 0 < 1024 by decide)
  split_ifs <;> omega

theorem isUtf8_pair (u u' : Nat) : IsUtf8 (encodeUchar (pairUchar u u')) := by
  refine isUtf8_encodeUchar (.inr ?_)
  have hu := Nat.mod_lt u (show 0 < 1024 by decide)
  have hu' := Nat.mod_lt u' (show 0 < 1024 by decide)
  have hpair := pairUchar_eq u u'
  simp only at hpair
  split_ifs at hpair <;> omega

/-! ## Strings -/

/-- Bytes of a character that has begun are copied; then the string is
UTF-8 if its text is, and so is what follows it. -/
def Keeps (text s rest : Bytes) : Prop :=
  ∀ bs text', text = bs ++ text' → (∀ b ∈ bs, 128 ≤ b.toNat) → IsUtf8 text' →
    ∃ s', s = bs ++ s' ∧ IsUtf8 s' ∧ IsUtf8 rest

/-- No character has begun. -/
theorem Keeps.whole {text s rest : Bytes} (h : Keeps text s rest) (htext : IsUtf8 text) :
    IsUtf8 s ∧ IsUtf8 rest := by
  obtain ⟨s', rfl, hs'⟩ := h [] text rfl (fun _ h => by cases h) htext
  exact hs'

/-- A text that begins with a byte below 128. -/
theorem Keeps.of_ascii {b : UInt8} {text s rest : Bytes} (hb : b.toNat < 128)
    (h : IsUtf8 (b :: text) → IsUtf8 s ∧ IsUtf8 rest) : Keeps (b :: text) s rest := by
  intro bs text' heq hbs htext'
  cases bs with
  | nil =>
    rw [List.nil_append] at heq
    subst heq
    exact ⟨s, rfl, h htext'⟩
  | cons x bs =>
    obtain ⟨rfl, _⟩ := List.cons.inj heq
    have hle := hbs b (List.mem_cons_self ..)
    omega

/-- A byte that is copied. -/
theorem Keeps.copied {b : UInt8} {text s rest : Bytes} (h : Keeps text s rest)
    (htext : IsUtf8 (b :: text)) : IsUtf8 (b :: s) ∧ IsUtf8 rest := by
  rcases htext.cons_cases with ⟨hb, htail⟩ | ⟨_, bs, text', rfl, hchar, hbs, htext'⟩
  · obtain ⟨hs, hrest⟩ := h.whole htail
    exact ⟨.append (.byte hb) hs, hrest⟩
  · obtain ⟨s', rfl, hs', hrest⟩ := h bs text' rfl hbs htext'
    exact ⟨.append hchar hs', hrest⟩

theorem Keeps.byte {b : UInt8} {text s rest : Bytes} (h : Keeps text s rest) :
    Keeps (b :: text) (b :: s) rest := by
  intro bs text' heq hbs htext'
  cases bs with
  | nil =>
    rw [List.nil_append] at heq
    subst heq
    exact ⟨b :: s, rfl, h.copied htext'⟩
  | cons x bs =>
    obtain ⟨rfl, rfl⟩ := List.cons.inj heq
    obtain ⟨s', rfl, hs'⟩ := h bs text' rfl (fun y hy => hbs y (List.mem_cons_of_mem _ hy)) htext'
    exact ⟨s', rfl, hs'⟩

/-- An escaped byte below 128 stands for such a byte; any other stands
for itself. -/
theorem unescape_cases (b : UInt8) :
    (b.toNat < 128 ∧ (unescape b).toNat < 128) ∨ unescape b = b := by
  unfold unescape
  split_ifs <;> first | exact .inr rfl | (subst_vars; exact .inl (by decide))

theorem Keeps.escape {b : UInt8} {text s rest : Bytes} (h : Keeps text s rest) :
    Keeps (92 :: b :: text) (unescape b :: s) rest := by
  refine .of_ascii (by decide) fun htext => ?_
  have htail := htext.tail_of_ascii (by decide)
  rcases unescape_cases b with ⟨hb, hu⟩ | hself
  · obtain ⟨hs, hrest⟩ := h.whole (htail.tail_of_ascii hb)
    exact ⟨.append (.byte hu) hs, hrest⟩
  · rw [hself]
    exact h.copied htail

theorem hexValue_ascii {b : UInt8} {d : Nat} (h : hexValue b = some d) : b.toNat < 128 := by
  have hle : ∀ c : UInt8, c.toNat < 128 → b ≤ c → b.toNat < 128 := fun c hc hb =>
    Nat.lt_of_le_of_lt (UInt8.le_iff_toNat_le.mp hb) hc
  unfold hexValue at h
  split_ifs at h with h1 h2 h3
  · rw [isDigit, Bool.and_eq_true] at h1
    exact hle 57 (by decide) (by simpa using h1.2)
  · rw [Bool.and_eq_true] at h2
    exact hle 102 (by decide) (by simpa using h2.2)
  · rw [Bool.and_eq_true] at h3
    exact hle 70 (by decide) (by simpa using h3.2)

theorem hexValue_lt {b : UInt8} {d : Nat} (h : hexValue b = some d) : d < 16 := by
  unfold hexValue at h
  split_ifs at h with h1 h2 h3 <;> cases h
  · rw [isDigit, Bool.and_eq_true] at h1
    have hle : b ≤ 57 := by simpa using h1.2
    have := UInt8.le_iff_toNat_le.mp hle
    rw [digitValue]
    exact Nat.lt_of_le_of_lt (Nat.sub_le_sub_right this 48) (by decide)
  · rw [Bool.and_eq_true] at h2
    have hle : b ≤ 102 := by simpa using h2.2
    have := UInt8.le_iff_toNat_le.mp hle
    exact Nat.lt_of_le_of_lt (Nat.sub_le_sub_right this 87) (by decide)
  · rw [Bool.and_eq_true] at h3
    have hle : b ≤ 70 := by simpa using h3.2
    have := UInt8.le_iff_toNat_le.mp hle
    exact Nat.lt_of_le_of_lt (Nat.sub_le_sub_right this 55) (by decide)

open Grammar in
theorem hex4_spec {a b c d : UInt8} {u : Nat} (h : hex4 a b c d = some u) :
    u < 65536 ∧ ∀ x ∈ [a, b, c, d], x.toNat < 128 := by
  unfold hex4 at h
  split at h
  · rename_i w x y z ha hb hc hd
    cases h
    have hw := hexValue_lt ha
    have hx := hexValue_lt hb
    have hy := hexValue_lt hc
    have hz := hexValue_lt hd
    refine ⟨by omega, ?_⟩
    simp only [List.mem_cons, List.not_mem_nil, or_false, forall_eq_or_imp, forall_eq]
    exact ⟨hexValue_ascii ha, hexValue_ascii hb, hexValue_ascii hc, hexValue_ascii hd⟩
  · cases h

/-- A code unit that is no half of a pair is a character. -/
theorem isValidChar_of_unit {u : Nat} (hu : u < 65536) (hs : isSurrogate u = false) :
    u.isValidChar := by
  have hhalf : ∀ r < 2048, isSurrogate (0xD800 + r) = true := by decide +kernel
  unfold Nat.isValidChar
  by_contra hinvalid
  have hr := hhalf (u - 0xD800) (by omega)
  have hsum : 0xD800 + (u - 0xD800) = u := by omega
  rw [hsum, hs] at hr
  cases hr

open Grammar in
theorem keeps_chars {text s rest : Bytes} (h : Chars text s rest) : Keeps text s rest := by
  induction h with
  | close rest => exact .of_ascii (by decide) fun h => ⟨.nil, h.tail_of_ascii (by decide)⟩
  | byte _ _ _ _ ih => exact ih.byte
  | escape _ _ _ ih => exact ih.escape
  | @unicode a b c d u text s rest hu hs _ ih =>
    obtain ⟨hlt, hdigits⟩ := hex4_spec hu
    refine .of_ascii (by decide) fun htext => ?_
    have htail : IsUtf8 ([a, b, c, d] ++ text) :=
      (htext.tail_of_ascii (by decide)).tail_of_ascii (by decide)
    obtain ⟨hs', hrest⟩ := ih.whole (htail.drop_ascii hdigits)
    exact ⟨.append (isUtf8_encodeUchar (isValidChar_of_unit hlt hs)) hs', hrest⟩
  | @pair a b c d a' b' c' d' u u' text s rest hu _ hu' _ ih =>
    have hdigits := (hex4_spec hu).2
    have hdigits' := (hex4_spec hu').2
    refine .of_ascii (by decide) fun htext => ?_
    have hfirst : IsUtf8 ([a, b, c, d] ++ (92 :: 117 :: ([a', b', c', d'] ++ text))) :=
      (htext.tail_of_ascii (by decide)).tail_of_ascii (by decide)
    have hsecond : IsUtf8 ([a', b', c', d'] ++ text) :=
      ((hfirst.drop_ascii hdigits).tail_of_ascii (by decide)).tail_of_ascii (by decide)
    obtain ⟨hs', hrest⟩ := ih.whole (hsecond.drop_ascii hdigits')
    exact ⟨.append (isUtf8_pair u u') hs', hrest⟩

/-! ## Values -/

mutual

/-- Every string and every name in the value. -/
def JsonValue.Strings (P : Bytes → Prop) : JsonValue → Prop
  | .object es => StringsEntries P es
  | .array vs => StringsValues P vs
  | .string s => P s
  | .integer _ | .double _ | .boolean _ | .null => True

def StringsEntry (P : Bytes → Prop) : Bytes × JsonValue → Prop
  | (name, v) => P name ∧ v.Strings P

def StringsEntries (P : Bytes → Prop) : List (Bytes × JsonValue) → Prop
  | [] => True
  | e :: es => StringsEntry P e ∧ StringsEntries P es

def StringsValues (P : Bytes → Prop) : List JsonValue → Prop
  | [] => True
  | v :: vs => v.Strings P ∧ StringsValues P vs

end

section Ascii

open Grammar

theorem isUtf8_ws {text rest : Bytes} (h : Ws text rest) (htext : IsUtf8 text) : IsUtf8 rest := by
  induction h with
  | nil => exact htext
  | @cons b text rest hb _ ih =>
    refine ih (htext.tail_of_ascii ?_)
    unfold isWhitespace at hb
    simp only [Bool.or_eq_true, beq_iff_eq] at hb
    rcases hb with ((rfl | rfl) | rfl) | rfl <;> decide

theorem digits_ascii {ds : Bytes} (h : Digits ds) : ∀ b ∈ ds, b.toNat < 128 := fun b hb =>
  hexValue_ascii (d := digitValue b) (if_pos (h b hb))

/-- A test for bytes below 128. -/
theorem ascii_of_all {bs : Bytes} (h : bs.all (fun b => decide (b.toNat < 128)) = true) :
    ∀ b ∈ bs, b.toNat < 128 :=
  fun b hb => of_decide_eq_true (List.all_eq_true.mp h b hb)

theorem sign_ascii (negative : Bool) : ∀ b ∈ sign negative, b.toNat < 128 := by
  cases negative with
  | true => exact ascii_of_all rfl
  | false => exact ascii_of_all rfl

theorem append_ascii {as bs : Bytes} (has : ∀ b ∈ as, b.toNat < 128)
    (hbs : ∀ b ∈ bs, b.toNat < 128) : ∀ b ∈ as ++ bs, b.toNat < 128 := by
  intro b hb
  rcases List.mem_append.mp hb with hb | hb
  · exact has b hb
  · exact hbs b hb

theorem cons_ascii {x : UInt8} {bs : Bytes} (hx : x.toNat < 128)
    (hbs : ∀ b ∈ bs, b.toNat < 128) : ∀ b ∈ x :: bs, b.toNat < 128 :=
  List.forall_mem_cons.mpr ⟨hx, hbs⟩

/-- A number is in ASCII, and has no strings. -/
theorem significand_ascii {P : Bytes → Prop} {t : Bytes} {v : JsonValue} (h : Significand t v) :
    (∀ b ∈ t, b.toNat < 128) ∧ v.Strings P := by
  cases h with
  | integer hds _ _ => exact ⟨append_ascii (sign_ascii _) (digits_ascii hds.1), trivial⟩
  | large hds _ => exact ⟨append_ascii (sign_ascii _) (digits_ascii hds.1), trivial⟩
  | fraction hds _ _ hfs _ =>
    exact ⟨append_ascii (append_ascii (sign_ascii _) (digits_ascii hds.1))
      (cons_ascii (by decide) (digits_ascii hfs)), trivial⟩

theorem numeral_ascii {P : Bytes → Prop} {t : Bytes} {v : JsonValue} (h : Numeral t v) :
    (∀ b ∈ t, b.toNat < 128) ∧ v.Strings P := by
  cases h with
  | plain h => exact significand_ascii h
  | @exponent t v e s ds ht he hs hds _ =>
    have het : e.toNat < 128 := by rcases he with rfl | rfl <;> decide
    have hst : ∀ b ∈ s, b.toNat < 128 := by
      rcases hs with rfl | rfl | rfl <;> exact ascii_of_all rfl
    exact ⟨append_ascii (significand_ascii (P := P) ht).1
      (cons_ascii het (append_ascii hst (digits_ascii hds))), trivial⟩

mutual

theorem isUtf8_value {text rest : Bytes} {v : JsonValue} : Value text v rest → IsUtf8 text →
    v.Strings IsUtf8 ∧ IsUtf8 rest
  | .null rest, htext => ⟨trivial, htext.drop_ascii (ascii_of_all rfl)⟩
  | .true rest, htext => ⟨trivial, htext.drop_ascii (ascii_of_all rfl)⟩
  | .false rest, htext => ⟨trivial, htext.drop_ascii (ascii_of_all rfl)⟩
  | .number rest h, htext =>
      ⟨(numeral_ascii h).2, htext.drop_ascii (numeral_ascii (P := IsUtf8) h).1⟩
  | .string h, htext => (keeps_chars h).whole (htext.tail_of_ascii (by decide))
  | .array h, htext => isUtf8_values h (htext.tail_of_ascii (by decide))
  | .object h, htext => isUtf8_entries h (htext.tail_of_ascii (by decide))

theorem isUtf8_values {text rest : Bytes} {vs : List JsonValue} : Values text vs rest →
    IsUtf8 text → StringsValues IsUtf8 vs ∧ IsUtf8 rest
  | .close hws, htext => ⟨trivial, (isUtf8_ws hws htext).tail_of_ascii (by decide)⟩
  | .value hws hv hvs, htext => by
      obtain ⟨hv', ht'⟩ := isUtf8_value hv (isUtf8_ws hws htext)
      obtain ⟨hvs', hrest⟩ := isUtf8_moreValues hvs ht'
      exact ⟨⟨hv', hvs'⟩, hrest⟩

theorem isUtf8_moreValues {text rest : Bytes} {vs : List JsonValue} : MoreValues text vs rest →
    IsUtf8 text → StringsValues IsUtf8 vs ∧ IsUtf8 rest
  | .close hws, htext => ⟨trivial, (isUtf8_ws hws htext).tail_of_ascii (by decide)⟩
  | .comma hws hvs, htext => isUtf8_values hvs ((isUtf8_ws hws htext).tail_of_ascii (by decide))

theorem isUtf8_entries {text rest : Bytes} {es : List (Bytes × JsonValue)} :
    Entries text es rest → IsUtf8 text → StringsEntries IsUtf8 es ∧ IsUtf8 rest
  | .close hws, htext => ⟨trivial, (isUtf8_ws hws htext).tail_of_ascii (by decide)⟩
  | .entry hws hname hcolon hws' hv hes, htext => by
      obtain ⟨hname', ht₂⟩ :=
        (keeps_chars hname).whole ((isUtf8_ws hws htext).tail_of_ascii (by decide))
      have ht₃ := (isUtf8_ws hcolon ht₂).tail_of_ascii (by decide)
      obtain ⟨hv', ht₅⟩ := isUtf8_value hv (isUtf8_ws hws' ht₃)
      obtain ⟨hes', hrest⟩ := isUtf8_moreEntries hes ht₅
      exact ⟨⟨⟨hname', hv'⟩, hes'⟩, hrest⟩

theorem isUtf8_moreEntries {text rest : Bytes} {es : List (Bytes × JsonValue)} :
    MoreEntries text es rest → IsUtf8 text → StringsEntries IsUtf8 es ∧ IsUtf8 rest
  | .close hws, htext => ⟨trivial, (isUtf8_ws hws htext).tail_of_ascii (by decide)⟩
  | .comma hws hes, htext =>
      isUtf8_entries hes ((isUtf8_ws hws htext).tail_of_ascii (by decide))

end

end Ascii

/-- The byte order mark is a character. -/
theorem isUtf8_skipBom {text : Bytes} (h : IsUtf8 text) : IsUtf8 (skipBom text) := by
  unfold skipBom
  split
  · exact IsUtf8.drop_char (c := Char.ofNat 0xFEFF) h
  · exact h

/-- What `json_parse_ex` makes of a text in UTF-8 is in UTF-8. -/
theorem jsonParse_isUtf8 {text : Bytes} {v : JsonValue} (h : jsonParse text = some v)
    (htext : IsUtf8 text) : v.Strings IsUtf8 := by
  obtain ⟨hws, hv, _, _⟩ := jsonParse_eq_some_iff.mp h
  exact (isUtf8_value hv (isUtf8_ws hws (isUtf8_skipBom htext))).1

/-- A backslash before an `é`, and the escape of one. -/
def escapedText : Bytes := [34, 92, 0xC3, 0xA9, 92, 117, 48, 48, 101, 57, 34]

theorem jsonParse_isUtf8_escaped :
    (JsonValue.string [0xC3, 0xA9, 0xC3, 0xA9]).Strings IsUtf8 :=
  @jsonParse_isUtf8 escapedText _ rfl
    ⟨['"', '\\', 'é', '\\', 'u', '0', '0', 'e', '9', '"'], by decide⟩

end Pyoneer.Shared
