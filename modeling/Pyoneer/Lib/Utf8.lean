/-
Pyoneer.Lib.Utf8 — texts of bytes that are UTF-8.

`IsUtf8` says that a text of bytes is the encoding of some characters,
in terms of the encoder of the standard library. What a reader of bytes
needs: such a text can be cut after a byte below 128
(`IsUtf8.tail_of_ascii`), a character that is no such byte has no such
byte in it (`encode_cases`), and a character is known by its bytes
(`encode_append_inj`).

Nothing here mentions a program.
-/
import Mathlib.Data.List.Basic

namespace Pyoneer.Lib

/-- The bytes encode characters. -/
def IsUtf8 (bs : List UInt8) : Prop := ∃ cs : List Char, bs = cs.flatMap String.utf8EncodeChar

theorem char_toNat_lt (c : Char) : c.toNat < 0x110000 :=
  c.valid.elim (fun h => Nat.lt_trans h (by decide)) And.right

theorem char_toNat_ofNat {n : Nat} (h : n.isValidChar) : (Char.ofNat n).toNat = n := by
  rw [Char.ofNat, dif_pos h]
  rfl

/-- A character is one byte below 128, or bytes none of which is. -/
theorem encode_cases (c : Char) :
    (c.toNat < 128 ∧ String.utf8EncodeChar c = [UInt8.ofNat c.toNat]) ∨
      (128 ≤ c.toNat ∧ ∀ b ∈ String.utf8EncodeChar c, 128 ≤ b.toNat) := by
  by_cases h : c.val.toNat ≤ 0x7F
  · left
    refine ⟨Nat.lt_succ_of_le h, ?_⟩
    simp only [String.utf8EncodeChar, if_pos h]
    rfl
  · right
    refine ⟨Nat.lt_of_not_le h, fun b hb => ?_⟩
    simp only [String.utf8EncodeChar, if_neg h] at hb
    split_ifs at hb <;> simp only [List.mem_cons, List.not_mem_nil, or_false] at hb <;>
      rcases hb with rfl | rfl | rfl | rfl <;> simp only [UInt8.toNat_ofNat'] <;> omega

/-- The bytes of a character, as numbers. -/
theorem encode_toNat (c : Char) : (String.utf8EncodeChar c).map UInt8.toNat =
    let v := c.toNat
    if v ≤ 0x7F then [v]
    else if v ≤ 0x7FF then [v / 64 + 0xC0, v % 64 + 0x80]
    else if v ≤ 0xFFFF then [v / 4096 + 0xE0, v / 64 % 64 + 0x80, v % 64 + 0x80]
    else [v / 262144 + 0xF0, v / 4096 % 64 + 0x80, v / 64 % 64 + 0x80, v % 64 + 0x80] := by
  have hmax : c.val.toNat < 0x110000 := char_toNat_lt c
  simp only [String.utf8EncodeChar, Char.toNat]
  split_ifs <;> simp only [List.map_cons, List.map_nil, UInt8.toNat_ofNat', List.cons.injEq,
    and_true] <;> omega

/-- No character begins with the bytes of another one. -/
theorem encode_append_inj {c d : Char} {as bs : List UInt8}
    (h : String.utf8EncodeChar c ++ as = String.utf8EncodeChar d ++ bs) : c = d ∧ as = bs := by
  have hcd : c = d := by
    have hmap := congrArg (List.map UInt8.toNat) h
    rw [List.map_append, List.map_append, encode_toNat, encode_toNat] at hmap
    refine Char.toNat_inj.mp ?_
    simp only at hmap
    split_ifs at hmap <;> simp only [List.cons_append, List.nil_append, List.cons.injEq] at hmap <;>
      omega
  subst hcd
  exact ⟨rfl, List.append_cancel_left h⟩

/-- A text has one reading. -/
theorem encode_text_injective : ∀ {cs ds : List Char},
    cs.flatMap String.utf8EncodeChar = ds.flatMap String.utf8EncodeChar → cs = ds
  | [], [], _ => rfl
  | [], d :: ds, h => by
      rw [List.flatMap_nil, List.flatMap_cons] at h
      exact absurd (List.append_eq_nil_iff.mp h.symm).1 String.utf8EncodeChar_ne_nil
  | c :: cs, [], h => by
      rw [List.flatMap_nil, List.flatMap_cons] at h
      exact absurd (List.append_eq_nil_iff.mp h).1 String.utf8EncodeChar_ne_nil
  | c :: cs, d :: ds, h => by
      rw [List.flatMap_cons, List.flatMap_cons] at h
      obtain ⟨rfl, hrest⟩ := encode_append_inj h
      rw [encode_text_injective hrest]

namespace IsUtf8

theorem nil : IsUtf8 [] := ⟨[], rfl⟩

theorem char (c : Char) : IsUtf8 (String.utf8EncodeChar c) := ⟨[c], by simp⟩

theorem append {as bs : List UInt8} (ha : IsUtf8 as) (hb : IsUtf8 bs) : IsUtf8 (as ++ bs) := by
  obtain ⟨cs, rfl⟩ := ha
  obtain ⟨ds, rfl⟩ := hb
  exact ⟨cs ++ ds, List.flatMap_append.symm⟩

theorem flatMap {α : Type} {f : α → List UInt8} {xs : List α} (h : ∀ x ∈ xs, IsUtf8 (f x)) :
    IsUtf8 (xs.flatMap f) := by
  induction xs with
  | nil => exact .nil
  | cons x xs ih =>
    rw [List.flatMap_cons]
    exact .append (h x (List.mem_cons_self ..)) (ih fun y hy => h y (List.mem_cons_of_mem _ hy))

/-- One byte below 128. -/
theorem byte {b : UInt8} (hb : b.toNat < 128) : IsUtf8 [b] := by
  have hvalid : b.toNat.isValidChar := .inl (by omega)
  refine ⟨[Char.ofNat b.toNat], ?_⟩
  have hnat := char_toNat_ofNat hvalid
  rw [List.flatMap_cons, List.flatMap_nil, List.append_nil]
  rcases encode_cases (Char.ofNat b.toNat) with ⟨_, henc⟩ | ⟨hle, _⟩
  · rw [henc, hnat, UInt8.ofNat_toNat]
  · omega

/-- Bytes below 128. -/
theorem ascii {bs : List UInt8} (h : ∀ b ∈ bs, b.toNat < 128) : IsUtf8 bs := by
  have hflat := IsUtf8.flatMap (f := fun b => [b]) fun b hb => IsUtf8.byte (h b hb)
  rwa [List.flatMap_singleton'] at hflat

/-- The first character and the rest. -/
theorem cases {bs : List UInt8} (h : IsUtf8 bs) :
    bs = [] ∨ ∃ c rest, bs = String.utf8EncodeChar c ++ rest ∧ IsUtf8 rest := by
  obtain ⟨cs, rfl⟩ := h
  cases cs with
  | nil => exact .inl rfl
  | cons c cs => exact .inr ⟨c, _, List.flatMap_cons, cs, rfl⟩

/-- The first byte is a character, or that of one with none below 128. -/
theorem cons_cases {b : UInt8} {text : List UInt8} (h : IsUtf8 (b :: text)) :
    (b.toNat < 128 ∧ IsUtf8 text) ∨
      (128 ≤ b.toNat ∧ ∃ bs rest, text = bs ++ rest ∧ IsUtf8 (b :: bs) ∧
        (∀ x ∈ bs, 128 ≤ x.toNat) ∧ IsUtf8 rest) := by
  rcases h.cases with h | ⟨c, rest, heq, hrest⟩
  · cases h
  · rcases encode_cases c with ⟨hlt, henc⟩ | ⟨_, hhigh⟩
    · rw [henc, List.singleton_append] at heq
      obtain ⟨rfl, rfl⟩ := List.cons.inj heq
      refine .inl ⟨?_, hrest⟩
      rw [UInt8.toNat_ofNat']
      omega
    · obtain ⟨b', bs, henc⟩ := List.exists_cons_of_ne_nil (@String.utf8EncodeChar_ne_nil c)
      rw [henc, List.cons_append] at heq
      obtain ⟨rfl, rfl⟩ := List.cons.inj heq
      rw [henc] at hhigh
      have hchar := IsUtf8.char c
      rw [henc] at hchar
      exact .inr ⟨hhigh b (List.mem_cons_self ..), bs, rest, rfl, hchar,
        fun x hx => hhigh x (List.mem_cons_of_mem _ hx), hrest⟩

/-- What follows a byte below 128. -/
theorem tail_of_ascii {b : UInt8} {text : List UInt8} (h : IsUtf8 (b :: text))
    (hb : b.toNat < 128) : IsUtf8 text := by
  rcases h.cons_cases with ⟨_, htext⟩ | ⟨hle, _⟩
  · exact htext
  · omega

/-- What follows bytes below 128. -/
theorem drop_ascii {as text : List UInt8} (has : ∀ b ∈ as, b.toNat < 128)
    (h : IsUtf8 (as ++ text)) : IsUtf8 text := by
  induction as with
  | nil => exact h
  | cons b as ih =>
    have htail := tail_of_ascii h (has b (List.mem_cons_self ..))
    exact ih (fun x hx => has x (List.mem_cons_of_mem _ hx)) htail

/-- What follows a character. -/
theorem drop_char {c : Char} {text : List UInt8} (h : IsUtf8 (String.utf8EncodeChar c ++ text)) :
    IsUtf8 text := by
  rcases h.cases with h | ⟨d, rest, heq, hrest⟩
  · exact absurd (List.append_eq_nil_iff.mp h).1 String.utf8EncodeChar_ne_nil
  · rwa [(encode_append_inj heq).2]

/-- What comes before a byte below 128. -/
theorem takeWhile_of_ascii {p : UInt8 → Bool} (hp : ∀ b, p b = false → b.toNat < 128)
    {text : List UInt8} (h : IsUtf8 text) : IsUtf8 (text.takeWhile p) := by
  obtain ⟨cs, rfl⟩ := h
  induction cs with
  | nil => exact .nil
  | cons c cs ih =>
    rw [List.flatMap_cons]
    by_cases hall : ∀ b ∈ String.utf8EncodeChar c, p b = true
    · rw [List.takeWhile_append_of_pos hall]
      exact .append (.char c) ih
    · rcases encode_cases c with ⟨_, henc⟩ | ⟨_, hhigh⟩
      · rw [henc] at hall ⊢
        rw [List.singleton_append, List.takeWhile_cons_of_neg (by simpa using hall)]
        exact .nil
      · refine absurd (fun b hb => ?_) hall
        by_contra hb'
        have := hp b (by simpa using hb')
        have := hhigh b hb
        omega

end IsUtf8

end Pyoneer.Lib
