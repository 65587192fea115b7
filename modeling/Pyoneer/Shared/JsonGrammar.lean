/-
Pyoneer.Shared.JsonGrammar — the language of `json_parse_ex`.

The source has no grammar, only the loop. This is the grammar that the
loop decides: `jsonParse_decides` says that a text is parsed to a value
exactly if the grammar reads that value from it. Every relation
reads the beginning of a text and leaves the rest: `Value text v rest`
says that `text` is a text of `v`, and then `rest`.

The language is JSON with the liberties of the source:

* a comma may stand before a closing bracket;
* a minus sign without digits is a zero, and can have an exponent;
* a string may hold any byte but NUL, and any byte but `u` may be
  escaped, for itself if it has no meaning as an escape;
* the escape after the first half of a surrogate pair is taken for the
  second half, whatever it is;
* a NUL after the root value ends the text.

An integer that does not fit `json_int_t` is a double; such a number
cannot have a decimal point.
-/
import Mathlib.Data.List.Induction
import Pyoneer.Shared.JsonParseTheorems

namespace Pyoneer.Shared

/-! ## The grammar -/

namespace Grammar

/-- White space. -/
inductive Ws : Bytes → Bytes → Prop
  | nil (text : Bytes) : Ws text text
  | cons {b : UInt8} {text rest : Bytes} : isWhitespace b = true → Ws text rest →
      Ws (b :: text) rest

/-- Four hexadecimal digits. -/
def hex4 (a b c d : UInt8) : Option Nat :=
  match hexValue a, hexValue b, hexValue c, hexValue d with
  | some w, some x, some y, some z => some (((w * 16 + x) * 16 + y) * 16 + z)
  | _, _, _, _ => none

/-- The inside of a string, up to and with the closing quote. -/
inductive Chars : Bytes → Bytes → Bytes → Prop
  | close (rest : Bytes) : Chars (34 :: rest) [] rest
  | byte {b : UInt8} {text s rest : Bytes} : b ≠ 0 → b ≠ 34 → b ≠ 92 → Chars text s rest →
      Chars (b :: text) (b :: s) rest
  | escape {b : UInt8} {text s rest : Bytes} : b ≠ 0 → b ≠ 117 → Chars text s rest →
      Chars (92 :: b :: text) (unescape b :: s) rest
  | unicode {a b c d : UInt8} {u : Nat} {text s rest : Bytes} : hex4 a b c d = some u →
      isSurrogate u = false → Chars text s rest →
      Chars (92 :: 117 :: a :: b :: c :: d :: text) (encodeUchar u ++ s) rest
  | pair {a b c d a' b' c' d' : UInt8} {u u' : Nat} {text s rest : Bytes} :
      hex4 a b c d = some u → isSurrogate u = true → hex4 a' b' c' d' = some u' →
      Chars text s rest →
      Chars (92 :: 117 :: a :: b :: c :: d :: 92 :: 117 :: a' :: b' :: c' :: d' :: text)
        (encodeUchar (pairUchar u u') ++ s) rest

def Digits (ds : Bytes) : Prop := ∀ b ∈ ds, isDigit b = true

/-- The number that digits spell. -/
def decimal (ds : Bytes) : Nat := ds.foldl (fun n b => n * 10 + digitValue b) 0

/-- The digits before the point: no zero in front. -/
def Whole (ds : Bytes) : Prop := Digits ds ∧ (ds.head? = some 48 → ds = [48])

def sign (negative : Bool) : Bytes := if negative then [45] else []

/-- A number without exponent. -/
inductive Significand : Bytes → JsonValue → Prop
  | integer {negative : Bool} {ds : Bytes} : Whole ds → negative = true ∨ ds ≠ [] →
      decimal ds ≤ jsonIntMax →
      Significand (sign negative ++ ds)
        (.integer (if negative then -(decimal ds : Int) else decimal ds))
  | large {negative : Bool} {ds : Bytes} : Whole ds → jsonIntMax < decimal ds →
      Significand (sign negative ++ ds) (.double (sign negative ++ ds))
  | fraction {negative : Bool} {ds fs : Bytes} : Whole ds → ds ≠ [] → decimal ds ≤ jsonIntMax →
      Digits fs → fs ≠ [] →
      Significand (sign negative ++ ds ++ 46 :: fs) (.double (sign negative ++ ds ++ 46 :: fs))

/-- A number. -/
inductive Numeral : Bytes → JsonValue → Prop
  | plain {t : Bytes} {v : JsonValue} : Significand t v → Numeral t v
  | exponent {t : Bytes} {v : JsonValue} {e : UInt8} {s ds : Bytes} : Significand t v →
      e = 101 ∨ e = 69 → s = [] ∨ s = [43] ∨ s = [45] → Digits ds → ds ≠ [] →
      Numeral (t ++ e :: (s ++ ds)) (.double (t ++ e :: (s ++ ds)))

mutual

/-- A value, without white space in front. -/
inductive Value : Bytes → JsonValue → Bytes → Prop
  | null (rest : Bytes) : Value (ascii "null" ++ rest) .null rest
  | true (rest : Bytes) : Value (ascii "true" ++ rest) (.boolean true) rest
  | false (rest : Bytes) : Value (ascii "false" ++ rest) (.boolean false) rest
  | number {t : Bytes} {v : JsonValue} (rest : Bytes) : Numeral t v → Value (t ++ rest) v rest
  | string {text s rest : Bytes} : Chars text s rest → Value (34 :: text) (.string s) rest
  | array {text rest : Bytes} {vs : List JsonValue} : Values text vs rest →
      Value (91 :: text) (.array vs) rest
  | object {text rest : Bytes} {es : List (Bytes × JsonValue)} : Entries text es rest →
      Value (123 :: text) (.object es) rest

/-- The rest of an array, where a value or the closing bracket may
stand. -/
inductive Values : Bytes → List JsonValue → Bytes → Prop
  | close {text rest : Bytes} : Ws text (93 :: rest) → Values text [] rest
  | value {text t t' rest : Bytes} {v : JsonValue} {vs : List JsonValue} : Ws text t →
      Value t v t' → MoreValues t' vs rest → Values text (v :: vs) rest

/-- The rest of an array, after a value. -/
inductive MoreValues : Bytes → List JsonValue → Bytes → Prop
  | close {text rest : Bytes} : Ws text (93 :: rest) → MoreValues text [] rest
  | comma {text t rest : Bytes} {vs : List JsonValue} : Ws text (44 :: t) → Values t vs rest →
      MoreValues text vs rest

/-- The rest of an object, where a name or the closing brace may
stand. -/
inductive Entries : Bytes → List (Bytes × JsonValue) → Bytes → Prop
  | close {text rest : Bytes} : Ws text (125 :: rest) → Entries text [] rest
  | entry {text t₁ t₂ t₃ t₄ t₅ name rest : Bytes} {v : JsonValue}
      {es : List (Bytes × JsonValue)} : Ws text (34 :: t₁) → Chars t₁ name t₂ →
      Ws t₂ (58 :: t₃) → Ws t₃ t₄ → Value t₄ v t₅ → MoreEntries t₅ es rest →
      Entries text ((name, v) :: es) rest

/-- The rest of an object, after an entry. -/
inductive MoreEntries : Bytes → List (Bytes × JsonValue) → Bytes → Prop
  | close {text rest : Bytes} : Ws text (125 :: rest) → MoreEntries text [] rest
  | comma {text t rest : Bytes} {es : List (Bytes × JsonValue)} : Ws text (44 :: t) →
      Entries t es rest → MoreEntries text es rest

end

/-- Nothing more to read: the end of the text, or a NUL. -/
def Ended (text : Bytes) : Prop := text.head?.getD 0 = 0

/-- A whole text: a value between white space. -/
inductive Text : Bytes → JsonValue → Prop
  | mk {text t t' rest : Bytes} {v : JsonValue} : Ws text t → Value t v t' → Ws t' rest →
      Ended rest → Text text v

end Grammar

/-! ## Numbers -/

namespace Number

open Grammar

/-- The text takes the number from `n` to `n'`. -/
inductive Steps : Number → Bytes → Number → Prop
  | nil (n : Number) : Steps n [] n
  | cons {n n' n'' : Number} {b : UInt8} {text : Bytes} : n.step b = .more n' →
      Steps n' text n'' → Steps n (b :: text) n''

theorem Steps.append {n n' n'' : Number} {a b : Bytes} (ha : Steps n a n')
    (hb : Steps n' b n'') : Steps n (a ++ b) n'' := by
  induction ha with
  | nil => exact hb
  | cons hs _ ih => exact .cons hs (ih hb)

theorem Steps.snoc {n n' n'' : Number} {a : Bytes} {b : UInt8} (ha : Steps n a n')
    (hb : n'.step b = .more n'') : Steps n (a ++ [b]) n'' :=
  ha.append (.cons hb (.nil _))

/-- A number before its point, with the digits `ds` that fit. -/
def whole (negative : Bool) (ds : Bytes) : Number where
  isDouble := false
  value := decimal ds
  digits := ds.length
  negative := negative
  zero := ds == [48]
  e := false
  gotSign := false
  text := sign negative ++ ds

/-- A number that is a double by now; `k` digits since the point or the
`e`. -/
structure Inexact (text : Bytes) (e gotSign : Bool) (k : Nat) (n : Number) : Prop where
  isDouble : n.isDouble = true
  e : n.e = e
  gotSign : n.gotSign = gotSign
  digits : n.digits = k
  text : n.text = text

/-- What has been read of a number. -/
inductive Reading : Bytes → Number → Prop
  | whole {negative : Bool} {ds : Bytes} : Whole ds → negative = true ∨ ds ≠ [] →
      decimal ds ≤ jsonIntMax → Reading (sign negative ++ ds) (whole negative ds)
  | large {negative : Bool} {ds : Bytes} {n : Number} : Whole ds → jsonIntMax < decimal ds →
      Inexact (sign negative ++ ds) false false ds.length n → Reading (sign negative ++ ds) n
  | fraction {negative : Bool} {ds fs : Bytes} {n : Number} : Whole ds → ds ≠ [] →
      decimal ds ≤ jsonIntMax → Digits fs →
      Inexact (sign negative ++ ds ++ 46 :: fs) false false fs.length n →
      Reading (sign negative ++ ds ++ 46 :: fs) n
  | exponent {t : Bytes} {v : JsonValue} {e : UInt8} {s ds : Bytes} {n : Number} :
      Significand t v → e = 101 ∨ e = 69 → s = [] ∨ s = [43] ∨ s = [45] → Digits ds →
      Inexact (t ++ e :: (s ++ ds)) true (!(s.isEmpty && ds.isEmpty)) ds.length n →
      Reading (t ++ e :: (s ++ ds)) n

theorem decimal_snoc (ds : Bytes) (b : UInt8) :
    decimal (ds ++ [b]) = decimal ds * 10 + digitValue b := by
  simp [decimal, List.foldl_append]

theorem digits_snoc {ds : Bytes} {b : UInt8} :
    Digits (ds ++ [b]) ↔ Digits ds ∧ isDigit b = true := by
  simp only [Digits, List.mem_append, List.mem_singleton]
  constructor
  · exact fun h => ⟨fun x hx => h x (Or.inl hx), h b (Or.inr rfl)⟩
  · rintro ⟨h, hb⟩ x (hx | rfl)
    · exact h x hx
    · exact hb

theorem digitValue_le {b : UInt8} (hb : isDigit b = true) : digitValue b ≤ 9 := by
  simp only [isDigit, Bool.and_eq_true, decide_eq_true_eq, UInt8.le_iff_toNat_le] at hb
  simp only [digitValue]
  have : (57 : UInt8).toNat = 57 := rfl
  omega

/-- `would_overflow` is the test for the integer with one more digit. -/
theorem wouldOverflow_iff {m : Nat} {b : UInt8} (hb : isDigit b = true) :
    wouldOverflow m b = true ↔ jsonIntMax < m * 10 + digitValue b := by
  have hd := digitValue_le hb
  have hmax : 9 ≤ jsonIntMax := by decide
  rw [wouldOverflow, decide_eq_true_eq, Nat.div_lt_iff_lt_mul (by decide)]
  omega

theorem whole_snoc {ds : Bytes} {b : UInt8} (hb : isDigit b = true) :
    Whole (ds ++ [b]) ↔ Whole ds ∧ ds ≠ [48] := by
  unfold Whole
  rw [digits_snoc]
  cases ds with
  | nil => simp [Digits, hb]
  | cons c ds =>
    simp only [List.cons_append, List.head?_cons, Option.some.injEq, List.cons.injEq]
    constructor
    · rintro ⟨⟨hd, _⟩, h⟩
      have hc : c ≠ 48 := by
        intro hc
        have := (h hc).2
        simp at this
      exact ⟨⟨hd, fun h => absurd h hc⟩, fun h => hc (List.cons.inj h).1⟩
    · rintro ⟨⟨hd, h⟩, hne⟩
      exact ⟨⟨hd, hb⟩, fun hc => absurd (List.cons_eq_cons.mpr (h hc)) hne⟩

theorem Inexact.more {t : Bytes} {e g : Bool} {k : Nat} {n : Number} {b : UInt8}
    (h : Inexact t e g k n) (hb : isDigit b = true) :
    ∃ n', n.step b = .more n' ∧ Inexact (t ++ [b]) e (g || e) (k + 1) n' := by
  cases e with
  | true =>
    refine ⟨_, by simp only [step, hb, if_true, digit, h.e]; rfl, ?_⟩
    exact ⟨h.isDouble, rfl, by simp, by simp [h.digits], by simp [h.text]⟩
  | false =>
    refine ⟨_, by simp only [step, hb, if_true, digit, h.e, h.isDouble]; rfl, ?_⟩
    exact ⟨rfl, rfl, by simp [h.gotSign], by simp [h.digits], by simp [h.text]⟩

/-- A double that ends, or has its `e` now. -/
theorem Inexact.finish {t : Bytes} {g : Bool} {k : Nat} {n : Number} {b : UInt8}
    (h : Inexact t false g k n) (hb : isDigit b = false) :
    n.step b = if k = 0 then .fails
      else if b = 101 ∨ b = 69 then
        .more { n with e := true, isDouble := true, digits := 0, zero := false, text := t ++ [b] }
      else .ends (.double t) := by
  have hclose : n.close = .double t := by simp [close, h.isDouble, h.text]
  simp [step, hb, Number.finish, h.e, h.isDouble, h.digits, h.text, hclose]

/-- The `e` of a number without exponent. -/
theorem Inexact.of_e {t : Bytes} {n : Number} {b : UInt8} (hg : n.gotSign = false) :
    Inexact (t ++ [b]) true false 0
      { n with e := true, isDouble := true, digits := 0, zero := false, text := t ++ [b] } :=
  ⟨rfl, rfl, hg, rfl, rfl⟩

theorem Reading.of_e {t : Bytes} {v : JsonValue} {n : Number} {b : UInt8}
    (hs : Significand t v) (hb : b = 101 ∨ b = 69) (h : Inexact (t ++ [b]) true false 0 n) :
    Reading (t ++ [b]) n := by
  have hr := @Reading.exponent t v b [] [] n hs hb (Or.inl rfl) (fun _ hx => by cases hx)
    (by simpa using h)
  simpa using hr

/-- A number in its exponent, before a digit is there. -/
theorem Inexact.exponent {t : Bytes} {g : Bool} {k : Nat} {n : Number} {b : UInt8}
    (h : Inexact t true g k n) (hb : isDigit b = false) :
    n.step b = if (b = 43 ∨ b = 45) ∧ g = false then
        .more { n with gotSign := true, text := t ++ [b] }
      else if k = 0 then .fails else .ends (.double t) := by
  have hclose : n.close = .double t := by simp [close, h.isDouble, h.text]
  simp [step, hb, Number.finish, h.e, h.isDouble, h.digits, h.text, h.gotSign, hclose]

/-- A number before its point, with one more digit. -/
theorem step_whole_digit {negative : Bool} {ds : Bytes} {b : UInt8} (hb : isDigit b = true) :
    (whole negative ds).step b = if ds = [48] then .fails
      else if jsonIntMax < decimal ds * 10 + digitValue b then
        .more { whole negative ds with
          digits := ds.length + 1, isDouble := true, text := sign negative ++ ds ++ [b] }
      else .more (whole negative (ds ++ [b])) := by
  have hover : wouldOverflow (decimal ds) b = true ↔ jsonIntMax < decimal ds * 10 + digitValue b :=
    wouldOverflow_iff hb
  have hzero : decide ((whole negative ds).digits = 0 ∧ b = 48) = (ds ++ [b] == [48]) := by
    rw [Bool.eq_iff_iff, decide_eq_true_eq, beq_iff_eq]
    cases ds <;> simp [whole]
  simp only [step, hb, if_true, digit, hzero]
  simp only [whole, Bool.false_eq_true, if_false, beq_iff_eq, hover, decimal_snoc,
    List.length_append, List.length_singleton, ← List.append_assoc]

/-- A number before its point, at another byte. -/
theorem step_whole_other {negative : Bool} {ds : Bytes} {b : UInt8} (hb : isDigit b = false) :
    (whole negative ds).step b =
      if b = 46 then
        if ds = [] then .fails
        else .more { whole negative ds with
          isDouble := true, digits := 0, text := sign negative ++ ds ++ [b] }
      else if b = 101 ∨ b = 69 then
        .more { whole negative ds with
          e := true, isDouble := true, digits := 0, zero := false,
          text := sign negative ++ ds ++ [b] }
      else .ends (.integer (if negative then -(decimal ds : Int) else decimal ds)) := by
  simp [step, hb, Number.finish, whole, close]
  rfl

/-- Whatever belongs to the number, the text so far stays a beginning of
one. -/
theorem Reading.more {t : Bytes} {n n' : Number} {b : UInt8} (h : Reading t n)
    (hs : n.step b = .more n') : Reading (t ++ [b]) n' := by
  cases hb : isDigit b with
  | true =>
    cases h with
    | @whole negative ds hds hsome hfits =>
      rw [step_whole_digit hb] at hs
      split_ifs at hs with hzero hlarge
      · cases hs
        rw [List.append_assoc]
        refine .large ((whole_snoc hb).mpr ⟨hds, hzero⟩) (by rwa [decimal_snoc]) ?_
        exact ⟨rfl, rfl, rfl, by simp, by simp⟩
      · cases hs
        rw [List.append_assoc]
        refine .whole ((whole_snoc hb).mpr ⟨hds, hzero⟩) (Or.inr (by simp)) ?_
        rw [decimal_snoc]
        omega
    | @large negative ds _ hds hlarge hn =>
      obtain ⟨m, hm, hn'⟩ := hn.more hb
      cases hs.symm.trans hm
      rw [List.append_assoc] at hn' ⊢
      have hzero : ds ≠ [48] := by
        rintro rfl
        exact absurd hlarge (by decide)
      refine .large ((whole_snoc hb).mpr ⟨hds, hzero⟩) ?_ (by simpa using hn')
      rw [decimal_snoc]
      omega
    | @fraction negative ds fs _ hds hne hfits hfs hn =>
      obtain ⟨m, hm, hn'⟩ := hn.more hb
      cases hs.symm.trans hm
      rw [List.append_assoc, List.cons_append] at hn' ⊢
      exact .fraction hds hne hfits (digits_snoc.mpr ⟨hfs, hb⟩) (by simpa using hn')
    | @exponent t v e s ds _ ht he hsign hds hn =>
      obtain ⟨m, hm, hn'⟩ := hn.more hb
      cases hs.symm.trans hm
      rw [List.append_assoc, List.cons_append, List.append_assoc] at hn' ⊢
      have hsome : (ds ++ [b]).isEmpty = false := by cases ds <;> rfl
      exact .exponent ht he hsign (digits_snoc.mpr ⟨hds, hb⟩) (by simpa [hsome] using hn')
  | false =>
    cases h with
    | @whole negative ds hds hsome hfits =>
      rw [step_whole_other hb] at hs
      split_ifs at hs with hpoint hempty he
      · cases hs
        subst hpoint
        exact @Reading.fraction negative ds [] _ hds hempty hfits (fun _ hx => by cases hx)
          ⟨rfl, rfl, rfl, rfl, by simp⟩
      · cases hs
        exact .of_e (.integer hds hsome hfits) he (.of_e rfl)
    | @large negative ds _ hds hlarge hn =>
      rw [hn.finish hb] at hs
      split_ifs at hs with hk he
      cases hs
      exact .of_e (.large hds hlarge) he (.of_e hn.gotSign)
    | @fraction negative ds fs _ hds hne hfits hfs hn =>
      rw [hn.finish hb] at hs
      split_ifs at hs with hk he
      cases hs
      have hfs' : fs ≠ [] := fun h => hk (by rw [h]; rfl)
      exact .of_e (.fraction hds hne hfits hfs hfs') he (.of_e hn.gotSign)
    | @exponent t v e s ds _ ht he hsign hds hn =>
      rw [hn.exponent hb] at hs
      split_ifs at hs with hsg
      cases hs
      obtain ⟨hsb, hg⟩ := hsg
      obtain ⟨hs0, hds0⟩ : s = [] ∧ ds = [] := by simpa using hg
      subst hs0 hds0
      have hsign' : [b] = [] ∨ [b] = [43] ∨ [b] = [45] := by
        rcases hsb with rfl | rfl
        · exact Or.inr (Or.inl rfl)
        · exact Or.inr (Or.inr rfl)
      have hr := @Reading.exponent t _ e [b] [] { n with
        gotSign := true, text := t ++ e :: ([] ++ []) ++ [b] } ht he hsign' hds
        ⟨hn.isDouble, hn.e, rfl, hn.digits, by simp⟩
      simpa using hr

theorem Reading.ends {t : Bytes} {n : Number} {b : UInt8} {v : JsonValue} (h : Reading t n)
    (hs : n.step b = .ends v) : Numeral t v := by
  have hb : isDigit b = false := by
    by_contra hb
    have hb : isDigit b = true := by simpa using hb
    unfold step Number.digit at hs
    rw [if_pos hb] at hs
    split_ifs at hs
  cases h with
  | whole hds hsome hfits =>
    have hv := Significand.integer hds hsome hfits
    rw [step_whole_other hb] at hs
    generalize JsonValue.integer _ = w at hs hv
    split_ifs at hs
    cases hs
    exact .plain hv
  | large hds hlarge hn =>
    rw [hn.finish hb] at hs
    split_ifs at hs
    cases hs
    exact .plain (.large hds hlarge)
  | @fraction negative ds fs _ hds hne hfits hfs hn =>
    rw [hn.finish hb] at hs
    split_ifs at hs with hk
    cases hs
    have hfs' : fs ≠ [] := fun h => hk (by rw [h]; rfl)
    exact .plain (.fraction hds hne hfits hfs hfs')
  | @exponent t v e s ds _ ht he hsign hds hn =>
    rw [hn.exponent hb] at hs
    split_ifs at hs with hsg hk
    cases hs
    have hds' : ds ≠ [] := fun h => hk (by rw [h]; rfl)
    exact .exponent ht he hsign hds hds'

/-- The first digit. -/
theorem Reading.first {n : Number} {b : UInt8} (hb : isDigit b = true)
    (hs : (Number.whole false []).step b = .more n) : Reading [b] n := by
  have hsmall : ¬ jsonIntMax < decimal [] * 10 + digitValue b := by
    have hd := digitValue_le hb
    have hmax : 9 ≤ jsonIntMax := by decide
    simp only [decimal, List.foldl_nil]
    omega
  rw [step_whole_digit hb, if_neg (by simp), if_neg hsmall] at hs
  cases hs
  have hfits : decimal [b] ≤ jsonIntMax := Nat.le_of_not_lt hsmall
  have hds : Whole [b] := (@whole_snoc [] b hb).mpr
    ⟨⟨fun _ hx => (List.not_mem_nil hx).elim, by simp⟩, by simp⟩
  exact @Reading.whole false [b] hds (Or.inr (by simp)) hfits

theorem Reading.steps {t u : Bytes} {n n' : Number} (h : Reading t n) (hs : Steps n u n') :
    Reading (t ++ u) n' := by
  induction hs generalizing t with
  | nil => simpa using h
  | cons hstep _ ih =>
    have hr := ih (h.more hstep)
    rwa [List.append_assoc] at hr

/-! The other direction: a number of the grammar is read to its end. -/

/-- A byte that cannot belong to a number. -/
def Ends (b : UInt8) : Prop :=
  isDigit b = false ∧ b ≠ 46 ∧ b ≠ 43 ∧ b ≠ 45 ∧ b ≠ 101 ∧ b ≠ 69

instance (b : UInt8) : Decidable (Ends b) :=
  inferInstanceAs (Decidable (_ ∧ _ ∧ _ ∧ _ ∧ _ ∧ _))

theorem steps_whole {negative : Bool} {ds : Bytes} (hds : Whole ds) :
    decimal ds ≤ jsonIntMax → Steps (whole negative []) ds (whole negative ds) := by
  induction ds using List.reverseRecOn with
  | nil => exact fun _ => .nil _
  | append_singleton ds b ih =>
    intro hfits
    have hb : isDigit b = true := (digits_snoc.mp hds.1).2
    obtain ⟨hds', hzero⟩ := (whole_snoc hb).mp hds
    rw [decimal_snoc] at hfits
    refine (ih hds' (by omega)).snoc ?_
    rw [step_whole_digit hb, if_neg hzero, if_neg (by omega)]

theorem steps_large {negative : Bool} {ds : Bytes} (hds : Whole ds) :
    jsonIntMax < decimal ds → ∃ n, Steps (whole negative []) ds n ∧
      Inexact (sign negative ++ ds) false false ds.length n := by
  induction ds using List.reverseRecOn with
  | nil => exact fun h => absurd h (by decide)
  | append_singleton ds b ih =>
    intro hlarge
    have hb : isDigit b = true := (digits_snoc.mp hds.1).2
    obtain ⟨hds', hzero⟩ := (whole_snoc hb).mp hds
    rw [decimal_snoc] at hlarge
    by_cases h : jsonIntMax < decimal ds
    · obtain ⟨n, hn, hi⟩ := ih hds' h
      obtain ⟨n', hs, hi'⟩ := hi.more hb
      exact ⟨n', hn.snoc hs, by simpa using hi'⟩
    · have hstep := @step_whole_digit negative ds b hb
      rw [if_neg hzero, if_pos hlarge] at hstep
      exact ⟨_, (steps_whole hds' (Nat.le_of_not_lt h)).snoc hstep,
        ⟨rfl, rfl, rfl, by simp, by simp⟩⟩

theorem Inexact.steps {t ds : Bytes} {e g : Bool} {n : Number} {k : Nat} (h : Inexact t e g k n)
    (hds : Digits ds) : ∃ n', Steps n ds n' ∧
      Inexact (t ++ ds) e (g || (e && !ds.isEmpty)) (k + ds.length) n' := by
  induction ds generalizing t g k n with
  | nil => exact ⟨n, .nil n, by simpa using h⟩
  | cons b ds ih =>
    have hb := hds b (List.mem_cons_self ..)
    obtain ⟨m, hm, hi⟩ := h.more hb
    obtain ⟨n', hn, hi'⟩ := ih hi fun x hx => hds x (List.mem_cons_of_mem _ hx)
    refine ⟨n', .cons hm hn, ?_⟩
    have hlen : k + (b :: ds).length = k + 1 + ds.length := by
      rw [List.length_cons]
      omega
    have hsign : (g || (e && !(b :: ds).isEmpty)) = (g || e || (e && !ds.isEmpty)) := by
      cases g <;> cases e <;> rfl
    rw [hlen, hsign]
    simpa using hi'

/-- How a number begins: with a minus sign or a digit. -/
def Begins (negative : Bool) (body : Bytes) : Prop :=
  negative = true ∨ ∃ b rest, body = b :: rest ∧ isDigit b = true

theorem begins_of_whole {negative : Bool} {ds : Bytes} (hds : Whole ds)
    (h : negative = true ∨ ds ≠ []) (rest : Bytes) : Begins negative (ds ++ rest) := by
  rcases h with h | h
  · exact Or.inl h
  · obtain ⟨b, bs, rfl⟩ := List.exists_cons_of_ne_nil h
    exact Or.inr ⟨b, bs ++ rest, rfl, hds.1 b (List.mem_cons_self ..)⟩

theorem Ends.finish {b : UInt8} (hb : Ends b) : ¬ (b = 101 ∨ b = 69) :=
  fun h => h.elim hb.2.2.2.2.1 hb.2.2.2.2.2

/-- A number without exponent, read to its end: it can end there, or go
on with an `e`. -/
theorem steps_significand {t : Bytes} {v : JsonValue} (h : Significand t v) :
    ∃ negative body n, t = sign negative ++ body ∧ Begins negative body ∧
      Steps (whole negative []) body n ∧ (∀ b, Ends b → n.step b = .ends v) ∧
      ∀ e, e = 101 ∨ e = 69 → ∃ n', n.step e = .more n' ∧ Inexact (t ++ [e]) true false 0 n' := by
  have he : ∀ e : UInt8, e = 101 ∨ e = 69 → isDigit e = false ∧ e ≠ 46 := by
    rintro e (rfl | rfl) <;> decide
  have inexact : ∀ {t : Bytes} {n : Number} {k : Nat}, Inexact t false false k n → k ≠ 0 →
      (∀ b, Ends b → n.step b = .ends (.double t)) ∧
      ∀ e, e = 101 ∨ e = 69 → ∃ n', n.step e = .more n' ∧
        Inexact (t ++ [e]) true false 0 n' := by
    intro t n k hn hk
    refine ⟨fun b hb => ?_, fun e hexp => ?_⟩
    · rw [hn.finish hb.1, if_neg hk, if_neg hb.finish]
    · have hstep := hn.finish (he e hexp).1
      rw [if_neg hk, if_pos hexp] at hstep
      exact ⟨_, hstep, .of_e hn.gotSign⟩
  cases h with
  | @integer negative ds hds hsome hfits =>
    refine ⟨negative, ds, whole negative ds, rfl, ?_, steps_whole hds hfits, fun b hb => ?_,
      fun e hexp => ?_⟩
    · simpa using begins_of_whole hds hsome []
    · rw [step_whole_other hb.1, if_neg hb.2.1, if_neg hb.finish]
    · have hstep := @step_whole_other negative ds e (he e hexp).1
      rw [if_neg (he e hexp).2, if_pos hexp] at hstep
      exact ⟨_, hstep, .of_e rfl⟩
  | @large negative ds hds hlarge =>
    have hne : ds ≠ [] := by
      rintro rfl
      exact absurd hlarge (by decide)
    obtain ⟨n, hs, hn⟩ := @steps_large negative ds hds hlarge
    obtain ⟨hends, hexp⟩ := inexact hn (by simpa using hne)
    refine ⟨negative, ds, n, rfl, ?_, hs, hends, hexp⟩
    simpa using begins_of_whole hds (Or.inr hne) []
  | @fraction negative ds fs hds hne hfits hfs hfs' =>
    have hstep := @step_whole_other negative ds 46 (by decide)
    rw [if_pos rfl, if_neg hne] at hstep
    have hpoint : Inexact (sign negative ++ ds ++ [46]) false false 0 { whole negative ds with
      isDouble := true, digits := 0, text := sign negative ++ ds ++ [46] } :=
      ⟨rfl, rfl, rfl, rfl, rfl⟩
    obtain ⟨n, hs, hn⟩ := hpoint.steps hfs
    have hn' : Inexact (sign negative ++ ds ++ 46 :: fs) false false fs.length n := by
      simpa using hn
    obtain ⟨hends, hexp⟩ := inexact hn' (by simpa using hfs')
    refine ⟨negative, ds ++ 46 :: fs, n, List.append_assoc .., begins_of_whole hds (Or.inr hne) _,
      ?_, hends, hexp⟩
    exact (steps_whole hds hfits).append (.cons hstep hs)

/-- A number of the grammar, read to its end. -/
theorem steps_numeral {t : Bytes} {v : JsonValue} (h : Numeral t v) :
    ∃ negative body n, t = sign negative ++ body ∧ Begins negative body ∧
      Steps (whole negative []) body n ∧ ∀ b, Ends b → n.step b = .ends v := by
  cases h with
  | plain ht =>
    obtain ⟨negative, body, n, heq, hb, hs, hends, _⟩ := steps_significand ht
    exact ⟨negative, body, n, heq, hb, hs, hends⟩
  | @exponent t w e s ds ht he hsign hds hne =>
    obtain ⟨negative, body, n, rfl, hb, hs, _, hexp⟩ := steps_significand ht
    obtain ⟨n₁, hstep, hn₁⟩ := hexp e he
    -- the sign, if there is one
    obtain ⟨n₂, g, hs₂, hn₂⟩ : ∃ n₂ g, Steps n₁ s n₂ ∧
        Inexact (sign negative ++ body ++ [e] ++ s) true g 0 n₂ := by
      have signed : ∀ b : UInt8, b = 43 ∨ b = 45 → isDigit b = false →
          ∃ n₂ g, Steps n₁ [b] n₂ ∧ Inexact (sign negative ++ body ++ [e] ++ [b]) true g 0 n₂ := by
        intro b hsg hdig
        have hstep := hn₁.exponent hdig
        rw [if_pos ⟨hsg, rfl⟩] at hstep
        exact ⟨_, true, .cons hstep (.nil _), ⟨hn₁.isDouble, hn₁.e, rfl, hn₁.digits, rfl⟩⟩
      rcases hsign with rfl | rfl | rfl
      · exact ⟨n₁, false, .nil _, by simpa using hn₁⟩
      · exact signed 43 (Or.inl rfl) (by decide)
      · exact signed 45 (Or.inr rfl) (by decide)
    obtain ⟨n₃, hs₃, hn₃⟩ := hn₂.steps hds
    have hbegins : Begins negative (body ++ e :: (s ++ ds)) := by
      rcases hb with hb | ⟨b, rest, rfl, hdig⟩
      · exact Or.inl hb
      · exact Or.inr ⟨b, rest ++ e :: (s ++ ds), rfl, hdig⟩
    refine ⟨negative, body ++ e :: (s ++ ds), n₃, List.append_assoc .., hbegins,
      hs.append (.cons hstep (hs₂.append hs₃)), fun b hb => ?_⟩
    have hsg : ¬ ((b = 43 ∨ b = 45) ∧ (g || (true && !ds.isEmpty)) = false) :=
      fun h => h.1.elim hb.2.2.1 hb.2.2.2.1
    have hlen : ¬ (0 + ds.length = 0) := by simpa using hne
    rw [hn₃.exponent hb.1, if_neg hsg, if_neg hlen]
    simp

theorem step_zero {n n' : Number} : n.step 0 ≠ .more n' := by
  have hfinish : n.finish 0 ≠ .more n' := by
    unfold Number.finish
    split_ifs <;> simp_all
  simpa [step, isDigit] using hfinish

/-- The bytes of a number, in the loop. -/
theorem Steps.run {n n' : Number} {t : Bytes} (hs : Steps n t n') (st : List Frame)
    (rest : Bytes) :
    Parser.run ⟨st, .number n⟩ (t ++ rest) = Parser.run ⟨st, .number n'⟩ rest := by
  induction hs with
  | nil => rfl
  | @cons n n' n'' b text hstep _ ih =>
    have hb : b ≠ 0 := by
      rintro rfl
      exact step_zero hstep
    rw [List.cons_append, Parser.run, if_neg hb]
    simp only [Parser.feed, hstep]
    exact ih

/-- Where the next byte ends a number, its value goes to its parent. -/
theorem run_ends {n : Number} {v : JsonValue} {rest : Bytes} (st : List Frame)
    (h : n.step (rest.head?.getD 0) = .ends v) :
    Parser.run ⟨st, .number n⟩ rest = (Parser.next v st).run rest := by
  have hatEnd : n.step 0 = .ends v → Parser.atEnd ⟨st, .number n⟩ = (Parser.next v st).atEnd := by
    intro h
    cases st with
    | nil => simp [Parser.atEnd, Parser.next, h]
    | cons f _ => cases f <;> simp [Parser.atEnd, Parser.next]
  cases rest with
  | nil => exact hatEnd h
  | cons b rest =>
    by_cases hb : b = 0
    · subst hb
      rw [Parser.run, Parser.run, if_pos rfl, if_pos rfl]
      exact hatEnd h
    · have hstep : n.step b = .ends v := h
      have hfeed : (Parser.next v st).feed b
          = Parser.feedPlain (Parser.next v st).stack (Parser.next v st).pc b := by
        cases st with
        | nil => rfl
        | cons f _ => cases f <;> rfl
      rw [Parser.run, Parser.run, if_neg hb, if_neg hb, hfeed]
      simp only [Parser.feed, hstep]

/-- A number that the loop gets through: bytes that belong to it, and a
byte that ends it. -/
theorem run_steps {n : Number} {st : List Frame} {text : Bytes} {w : JsonValue}
    (h : Parser.run ⟨st, .number n⟩ text = some w) :
    ∃ t rest n' v, text = t ++ rest ∧ Steps n t n' ∧ n'.step (rest.head?.getD 0) = .ends v ∧
      (Parser.next v st).run rest = some w := by
  have stop : ∀ {n : Number} (rest : Bytes), (∀ n', n.step (rest.head?.getD 0) ≠ .more n') →
      Parser.run ⟨st, .number n⟩ rest = some w → ∃ v, n.step (rest.head?.getD 0) = .ends v ∧
        (Parser.next v st).run rest = some w := by
    intro n rest hmore h
    cases hs : n.step (rest.head?.getD 0) with
    | more n' => exact absurd hs (hmore n')
    | ends v => exact ⟨v, rfl, (run_ends st hs).symm.trans h⟩
    | fails =>
      cases rest with
      | nil => cases st <;> simp_all [Parser.run, Parser.atEnd]
      | cons b rest =>
        simp only [List.head?_cons, Option.getD_some] at hs
        rw [Parser.run] at h
        split at h
        · cases st <;> simp_all [Parser.atEnd]
        · simp [Parser.feed, hs] at h
  induction text generalizing n with
  | nil =>
    obtain ⟨v, hv, hrun⟩ := stop [] (fun n' => step_zero) h
    exact ⟨[], [], n, v, rfl, .nil n, hv, hrun⟩
  | cons b text ih =>
    cases hs : n.step b with
    | more n' =>
      have hstep : Steps n [b] n' := .cons hs (.nil n')
      have hrun := hstep.run st text
      rw [List.singleton_append, h] at hrun
      obtain ⟨t, rest, n'', v, rfl, hsteps, hv, hnext⟩ := ih hrun.symm
      exact ⟨b :: t, rest, n'', v, rfl, .cons hs hsteps, hv, hnext⟩
    | _ =>
      obtain ⟨v, hv, hrun⟩ := stop (b :: text) (fun n' => by simp [hs]) h
      exact ⟨[], b :: text, n, v, rfl, .nil n, hv, hrun⟩

end Number

/-! ## Strings -/

namespace Parser

open Grammar

/-- After the fourth digit of an escape. -/
def afterHex (st : List Frame) (name : Bool) (acc : Bytes) (u : Nat) : Option Nat → Parser
  | some v => ⟨st, .string name (acc ++ encodeUchar (pairUchar v u))⟩
  | none =>
    if isSurrogate u then ⟨st, .pair name acc u false⟩
    else ⟨st, .string name (acc ++ encodeUchar u)⟩

theorem run_digit {st : List Frame} {name : Bool} {acc : Bytes} {u k : Nat}
    {first : Option Nat} {a : UInt8} {d : Nat} (ha : hexValue a = some d) (text : Bytes) :
    run ⟨st, .hex name acc u (k + 1) first⟩ (a :: text)
      = run ⟨st, .hex name acc (u * 16 + d) k first⟩ text := by
  have h0 : a ≠ 0 := by
    rintro rfl
    cases ha
  rw [run, if_neg h0]
  simp only [feed, feedPlain, feedHex, ha]

theorem run_lastDigit {st : List Frame} {name : Bool} {acc : Bytes} {u : Nat}
    {first : Option Nat} {a : UInt8} {d : Nat} (ha : hexValue a = some d) (text : Bytes) :
    run ⟨st, .hex name acc u 0 first⟩ (a :: text)
      = run (afterHex st name acc (u * 16 + d) first) text := by
  have h0 : a ≠ 0 := by
    rintro rfl
    cases ha
  rw [run, if_neg h0]
  simp only [feed, feedPlain, feedHex, ha]
  cases first with
  | some v => rfl
  | none => cases hsur : isSurrogate (u * 16 + d) <;> simp [afterHex, hsur]

/-- In an escape the next byte is a digit. -/
theorem run_hex_cons {st : List Frame} {name : Bool} {acc text : Bytes} {u k : Nat}
    {first : Option Nat} {w : JsonValue} (h : run ⟨st, .hex name acc u k first⟩ text = some w) :
    ∃ a rest d, text = a :: rest ∧ hexValue a = some d := by
  cases text with
  | nil => cases h
  | cons a rest =>
    cases ha : hexValue a with
    | some d => exact ⟨a, rest, d, rfl, ha⟩
    | none =>
      rw [run] at h
      split at h
      · cases h
      · simp [feed, feedPlain, feedHex, ha] at h

/-- The four digits of an escape. -/
theorem run_hex4 {st : List Frame} {name : Bool} {acc : Bytes} {first : Option Nat}
    {a b c d : UInt8} {u : Nat} (h : hex4 a b c d = some u) (text : Bytes) :
    run ⟨st, .hex name acc 0 3 first⟩ (a :: b :: c :: d :: text)
      = run (afterHex st name acc u first) text := by
  unfold hex4 at h
  split at h
  · rename_i w x y z hw hx hy hz
    cases h
    rw [run_digit hw, run_digit hx, run_digit hy, run_lastDigit hz, Nat.zero_mul, Nat.zero_add]
  · cases h

theorem run_hex4_sound {st : List Frame} {name : Bool} {acc text : Bytes} {first : Option Nat}
    {w : JsonValue} (h : run ⟨st, .hex name acc 0 3 first⟩ text = some w) :
    ∃ a b c d u rest, text = a :: b :: c :: d :: rest ∧ hex4 a b c d = some u ∧
      run (afterHex st name acc u first) rest = some w := by
  obtain ⟨a, _, x, rfl, ha⟩ := run_hex_cons h
  have h₁ := (run_digit ha _).symm.trans h
  obtain ⟨b, _, y, rfl, hb⟩ := run_hex_cons h₁
  have h₂ := (run_digit hb _).symm.trans h₁
  obtain ⟨c, _, z, rfl, hc⟩ := run_hex_cons h₂
  have h₃ := (run_digit hc _).symm.trans h₂
  obtain ⟨d, rest, v, rfl, hd⟩ := run_hex_cons h₃
  have hu : hex4 a b c d = some (((x * 16 + y) * 16 + z) * 16 + v) := by
    simp only [hex4, ha, hb, hc, hd]
  exact ⟨a, b, c, d, _, rest, rfl, hu, (run_hex4 hu rest).symm.trans h⟩

/-- A string of the grammar, in the loop. -/
theorem run_chars {text s rest : Bytes} (h : Chars text s rest) :
    ∀ (st : List Frame) (name : Bool) (acc : Bytes),
      run ⟨st, .string name acc⟩ text
        = (closeString st name (acc ++ s)).bind fun p => p.run rest := by
  induction h with
  | close rest =>
    intro st name acc
    rw [run, if_neg (by decide), List.append_nil]
    have hfeed : feed ⟨st, .string name acc⟩ 34 = closeString st name acc := by
      simp [feed, feedPlain]
    rw [hfeed]
    cases closeString st name acc <;> rfl
  | byte h0 hq hs _ ih =>
    intro st name acc
    have hb := Spells.byte h0 hq hs st name acc
    rw [← List.singleton_append, hb, ih, List.append_assoc]
    rfl
  | @escape b _ _ _ h0 hu _ ih =>
    intro st name acc
    have hb := Spells.escape h0 hu st name acc
    rw [show ∀ t : Bytes, 92 :: b :: t = [92, b] ++ t from fun _ => rfl, hb, ih, List.append_assoc]
    rfl
  | unicode hu hsur _ ih =>
    intro st name acc
    have hesc : ∀ t, run ⟨st, .string name acc⟩ (92 :: 117 :: t)
        = run ⟨st, .hex name acc 0 3 none⟩ t := fun t => rfl
    have hafter : ∀ u, isSurrogate u = false → afterHex st name acc u none
        = ⟨st, .string name (acc ++ encodeUchar u)⟩ := by
      intro u hu
      simp [afterHex, hu]
    rw [hesc, run_hex4 hu, hafter _ hsur, ih, List.append_assoc]
  | pair hu hsur hu' _ ih =>
    intro st name acc
    have hesc : ∀ t, run ⟨st, .string name acc⟩ (92 :: 117 :: t)
        = run ⟨st, .hex name acc 0 3 none⟩ t := fun t => rfl
    have hsecond : ∀ u t, isSurrogate u = true →
        run (afterHex st name acc u none) (92 :: 117 :: t)
          = run ⟨st, .hex name acc 0 3 (some u)⟩ t := by
      intro u t hu
      simp only [afterHex, hu, if_true]
      rfl
    rw [hesc, run_hex4 hu, hsecond _ _ hsur, run_hex4 hu']
    simp only [afterHex]
    rw [ih, List.append_assoc]

/-- After a backslash and `u`. -/
theorem run_unicode_sound {st : List Frame} {name : Bool} {acc text : Bytes} {w : JsonValue}
    (h : run ⟨st, .hex name acc 0 3 none⟩ text = some w) :
    ∃ text' add, text'.length < text.length ∧
      (∀ s rest, Chars text' s rest → Chars (92 :: 117 :: text) (add ++ s) rest) ∧
      run ⟨st, .string name (acc ++ add)⟩ text' = some w := by
  obtain ⟨a, b, c, d, u, text, rfl, hu, h⟩ := run_hex4_sound h
  cases hsur : isSurrogate u with
  | false =>
    simp only [afterHex, hsur] at h
    refine ⟨text, encodeUchar u, ?_, fun s rest hs => .unicode hu hsur hs, h⟩
    simp only [List.length_cons]
    omega
  | true =>
    simp only [afterHex, hsur, if_true] at h
    cases text with
    | nil => cases h
    | cons x text =>
      obtain rfl : x = 92 := by
        by_contra hx
        simp [run, feed, feedPlain, atEnd, hx] at h
      cases text with
      | nil => cases h
      | cons y text =>
        obtain rfl : y = 117 := by
          by_contra hy
          simp [run, feed, feedPlain, atEnd, hy] at h
        obtain ⟨a', b', c', d', u', text, rfl, hu', h⟩ := run_hex4_sound h
        refine ⟨text, encodeUchar (pairUchar u u'), ?_,
          fun s rest hs => .pair hu hsur hu' hs, h⟩
        simp only [List.length_cons]
        omega

/-- The loop leaves a string only at its end, and what it has read is a
string of the grammar. -/
theorem run_chars_sound {st : List Frame} {name : Bool} {w : JsonValue} (n : Nat) :
    ∀ {text acc : Bytes}, text.length ≤ n → run ⟨st, .string name acc⟩ text = some w →
      ∃ s rest p, Chars text s rest ∧ closeString st name (acc ++ s) = some p ∧
        p.run rest = some w ∧ rest.length < text.length := by
  induction n with
  | zero =>
    intro text acc hlen h
    rw [List.eq_nil_of_length_eq_zero (Nat.le_zero.mp hlen)] at h
    cases h
  | succ n ih =>
    intro text acc hlen h
    -- a piece that stands for `add`, and what is left
    have piece : ∀ (text' add : Bytes), text'.length < text.length →
        (∀ s rest, Chars text' s rest → Chars text (add ++ s) rest) →
        run ⟨st, .string name (acc ++ add)⟩ text' = some w →
        ∃ s rest p, Chars text s rest ∧ closeString st name (acc ++ s) = some p ∧
          p.run rest = some w ∧ rest.length < text.length := by
      intro text' add hlt hchars hrun
      obtain ⟨s, rest, p, hs, hclose, hrun, hrest⟩ := ih (by omega) hrun
      refine ⟨add ++ s, rest, p, hchars s rest hs, ?_, hrun, by omega⟩
      rwa [List.append_assoc] at hclose
    cases text with
    | nil => cases h
    | cons b text =>
      have h0 : b ≠ 0 := by
        rintro rfl
        cases h
      by_cases hslash : b = 92
      · subst hslash
        cases text with
        | nil => cases h
        | cons c text =>
          have hc : c ≠ 0 := by
            rintro rfl
            cases h
          by_cases hu : c = 117
          · subst hu
            obtain ⟨text', add, hlt, hchars, hrun⟩ := run_unicode_sound h
            refine piece _ _ ?_ hchars hrun
            simp only [List.length_cons]
            omega
          · refine piece text [unescape c] (by simp only [List.length_cons]; omega)
              (fun s rest hs => .escape hc hu hs) ?_
            have hfeeds := Spells.escape hc hu st name acc
            exact (hfeeds text).symm.trans h
      · by_cases hquote : b = 34
        · subst hquote
          rw [run, if_neg (by decide)] at h
          have hfeed : feed ⟨st, .string name acc⟩ 34 = closeString st name acc := by
            simp [feed, feedPlain]
          rw [hfeed] at h
          cases hclose : closeString st name acc with
          | none => simp [hclose] at h
          | some p =>
            simp only [hclose] at h
            refine ⟨[], text, p, .close text, ?_, h, by simp⟩
            rwa [List.append_nil]
        · refine piece text [b] (by simp only [List.length_cons]; omega)
            (fun s rest hs => .byte h0 hquote hslash hs) ?_
          have hfeeds := Spells.byte h0 hquote hslash st name acc
          exact (hfeeds text).symm.trans h

/-! ## Between the tokens -/

/-- White space is skipped here. -/
def Skips (p : Parser) : Prop := p.atEnd = none ∧ ∀ b, isWhitespace b = true → p.feed b = some p

theorem skips_seek (st : List Frame) (c k : Bool) : Skips ⟨st, .seek c k⟩ := by
  refine ⟨rfl, fun b hb => ?_⟩
  simp [feed, feedPlain, feedSeek, hb]

theorem skips_object (st : List Frame) (c : Bool) : Skips ⟨st, .object c⟩ := by
  refine ⟨rfl, fun b hb => ?_⟩
  simp [feed, feedPlain, feedObject, hb]

theorem isWhitespace_iff {b : UInt8} :
    isWhitespace b = true ↔ b = 10 ∨ b = 32 ∨ b = 9 ∨ b = 13 := by
  simp [isWhitespace, or_assoc]

theorem ne_zero_of_isWhitespace {b : UInt8} (hb : isWhitespace b = true) : b ≠ 0 := by
  rintro rfl
  cases hb

theorem run_ws {p : Parser} (hp : Skips p) {text rest : Bytes} (h : Ws text rest) :
    p.run text = p.run rest := by
  induction h with
  | nil => rfl
  | cons hb _ ih =>
    rw [run, if_neg (ne_zero_of_isWhitespace hb), hp.2 _ hb]
    exact ih

/-- The next byte that is no white space. -/
theorem run_token {p : Parser} (hp : Skips p) {text : Bytes} {w : JsonValue}
    (h : p.run text = some w) :
    ∃ b rest p', Ws text (b :: rest) ∧ isWhitespace b = false ∧ p.feed b = some p' ∧
      p'.run rest = some w ∧ rest.length < text.length := by
  induction text with
  | nil =>
    rw [run, hp.1] at h
    cases h
  | cons b text ih =>
    by_cases hb : isWhitespace b = true
    · rw [run, if_neg (ne_zero_of_isWhitespace hb), hp.2 b hb] at h
      obtain ⟨c, rest, p', hws, hc, hfeed, hrun, hlt⟩ := ih h
      exact ⟨c, rest, p', .cons hb hws, hc, hfeed, hrun, Nat.lt_succ_of_lt hlt⟩
    · rw [run] at h
      split at h
      · rw [hp.1] at h
        cases h
      · cases hf : p.feed b with
        | none => simp [hf] at h
        | some p' =>
          simp only [hf] at h
          exact ⟨b, text, p', .nil _, by simpa using hb, hf, h, Nat.lt_succ_self _⟩

/-! ## What the grammar reads, the loop reads -/

/-- What may follow a number. -/
def EndsNumber (text : Bytes) : Prop := Number.Ends (text.head?.getD 0)

theorem EndsNumber.byte {b : UInt8} {rest : Bytes} (hb : Number.Ends b) :
    EndsNumber (b :: rest) := hb

theorem EndsNumber.of_ws {text rest : Bytes} (h : Ws text rest) (hrest : EndsNumber rest) :
    EndsNumber text := by
  cases h with
  | nil => exact hrest
  | @cons b _ _ hb _ =>
    refine .byte ?_
    rcases isWhitespace_iff.mp hb with rfl | rfl | rfl | rfl <;> decide

theorem EndsNumber.ended {text : Bytes} (h : Ended text) : EndsNumber text := by
  unfold Ended at h
  rw [EndsNumber, h]
  decide

theorem endsNumber_moreValues {text rest : Bytes} {vs : List JsonValue}
    (h : MoreValues text vs rest) : EndsNumber text := by
  cases h with
  | close hws => exact .of_ws hws (.byte (by decide))
  | comma hws _ => exact .of_ws hws (.byte (by decide))

theorem endsNumber_moreEntries {text rest : Bytes} {es : List (Bytes × JsonValue)}
    (h : MoreEntries text es rest) : EndsNumber text := by
  cases h with
  | close hws => exact .of_ws hws (.byte (by decide))
  | comma hws _ => exact .of_ws hws (.byte (by decide))

theorem run_byte {p p' : Parser} {b : UInt8} (hb : b ≠ 0) (h : p.feed b = some p') (text : Bytes) :
    p.run (b :: text) = p'.run text :=
  Feeds.byte hb h text

theorem isDigit_ne {b c : UInt8} (hb : isDigit b = true) (hc : isDigit c = false) : b ≠ c := by
  rintro rfl
  rw [hb] at hc
  cases hc

/-- The first digit of a number. -/
theorem feed_digit {st : List Frame} {b : UInt8} (hb : isDigit b = true) :
    feed ⟨st, .seek false false⟩ b =
      match (Number.whole false []).step b with
      | .more n => some ⟨st, .number n⟩
      | _ => none := by
  have hws : isWhitespace b = false := by
    by_contra h
    rw [Bool.not_eq_false, isWhitespace_iff] at h
    rcases h with rfl | rfl | rfl | rfl <;> cases hb
  have hne := fun c hc => isDigit_ne (c := c) hb hc
  simp only [feed, feedPlain, feedSeek, openValue, hws, hne 93 rfl, hne 123 rfl, hne 91 rfl,
    hne 34 rfl, hne 116 rfl, hne 102 rfl, hne 110 rfl, hne 45 rfl, hb, Bool.false_eq_true,
    if_false, if_true]
  rfl

theorem run_numeral {t : Bytes} {v : JsonValue} (h : Numeral t v) {rest : Bytes}
    (hrest : EndsNumber rest) (st : List Frame) :
    run ⟨st, .seek false false⟩ (t ++ rest) = (next v st).run rest := by
  obtain ⟨negative, body, n, rfl, hbegins, hs, hends⟩ := Number.steps_numeral h
  have hrun : run ⟨st, .number (.whole negative [])⟩ (body ++ rest) = (next v st).run rest := by
    rw [hs.run, Number.run_ends st (hends _ hrest)]
  cases negative with
  | true =>
    rw [← hrun]
    exact run_byte (by decide) rfl _
  | false =>
    obtain ⟨b, ds, rfl, hb⟩ := hbegins.resolve_left Bool.false_ne_true
    cases hs with
    | @cons _ n' _ _ _ hstep hs =>
      have hb0 : b ≠ 0 := by
        rintro rfl
        cases hb
      have hopen : feed ⟨st, .seek false false⟩ b = some ⟨st, .number n'⟩ := by
        rw [feed_digit hb, hstep]
      rw [← Number.run_ends st (hends _ hrest), ← hs.run]
      exact run_byte hb0 hopen _

mutual

theorem run_value : ∀ {text : Bytes} {v : JsonValue} {rest : Bytes}, Value text v rest →
    EndsNumber rest → ∀ st, run ⟨st, .seek false false⟩ text = (next v st).run rest
  | _, _, _, .null rest, _, st => rfl
  | _, _, _, .true rest, _, st => rfl
  | _, _, _, .false rest, _, st => rfl
  | _, _, _, .number rest h, hrest, st => run_numeral h hrest st
  | _, _, _, .string h, _, st => by
      rw [run_byte (by decide) (by rfl), run_chars h]
      rfl
  | _, _, _, .array h, _, st => by
      rw [run_byte (by decide) (by rfl), run_values h]
      rfl
  | _, _, _, .object h, _, st => by
      rw [run_byte (by decide) (by rfl), run_entries h]
      rfl

theorem run_values : ∀ {text rest : Bytes} {vs : List JsonValue}, Values text vs rest →
    ∀ us st, run ⟨.array us :: st, .seek false false⟩ text = (next (.array (us ++ vs)) st).run rest
  | _, _, _, .close hws, us, st => by
      rw [run_ws (skips_seek _ _ _) hws, List.append_nil]
      exact run_byte (by decide) rfl _
  | _, _, _, .value hws hv hmore, us, st => by
      rw [run_ws (skips_seek _ _ _) hws, run_value hv (endsNumber_moreValues hmore)]
      exact (run_moreValues hmore _ st).trans (by rw [List.append_assoc]; rfl)

theorem run_moreValues : ∀ {text rest : Bytes} {vs : List JsonValue}, MoreValues text vs rest →
    ∀ us st, run ⟨.array us :: st, .seek true false⟩ text = (next (.array (us ++ vs)) st).run rest
  | _, _, _, .close hws, us, st => by
      rw [run_ws (skips_seek _ _ _) hws, List.append_nil]
      exact run_byte (by decide) rfl _
  | _, _, _, .comma hws h, us, st => by
      rw [run_ws (skips_seek _ _ _) hws, run_byte (by decide) (by rfl)]
      exact run_values h us st

theorem run_entries : ∀ {text rest : Bytes} {es : List (Bytes × JsonValue)},
    Entries text es rest → ∀ fs name st, run ⟨.object fs name :: st, .object false⟩ text
      = (next (.object (fs ++ es)) st).run rest
  | _, _, _, .close hws, fs, name, st => by
      rw [run_ws (skips_object _ _) hws, List.append_nil]
      exact run_byte (by decide) rfl _
  | _, _, _, .entry hws hs hcolon hws' hv hmore, fs, name, st => by
      rw [run_ws (skips_object _ _) hws, run_byte (by decide) (by rfl), run_chars hs]
      simp only [closeString, if_true, Option.bind_some, List.nil_append]
      rw [run_ws (skips_seek _ _ _) hcolon, run_byte (by decide) (by rfl),
        run_ws (skips_seek _ _ _) hws', run_value hv (endsNumber_moreEntries hmore)]
      exact (run_moreEntries hmore _ _ st).trans (by rw [List.append_assoc]; rfl)

theorem run_moreEntries : ∀ {text rest : Bytes} {es : List (Bytes × JsonValue)},
    MoreEntries text es rest → ∀ fs name st, run ⟨.object fs name :: st, .object true⟩ text
      = (next (.object (fs ++ es)) st).run rest
  | _, _, _, .close hws, fs, name, st => by
      rw [run_ws (skips_object _ _) hws, List.append_nil]
      exact run_byte (by decide) rfl _
  | _, _, _, .comma hws h, fs, name, st => by
      rw [run_ws (skips_object _ _) hws, run_byte (by decide) (by rfl)]
      exact run_entries h fs name st

end

/-! ## What the loop reads, the grammar reads -/

/-- The rest of an array, of at most `n` bytes. -/
def ReadsValues (n : Nat) : Prop :=
  ∀ {text : Bytes}, text.length ≤ n → ∀ {us : List JsonValue} {st : List Frame} {w : JsonValue},
    run ⟨.array us :: st, .seek false false⟩ text = some w →
    ∃ vs rest, Values text vs rest ∧ rest.length < text.length ∧
      (next (.array (us ++ vs)) st).run rest = some w

/-- The rest of an object. -/
def ReadsEntries (n : Nat) : Prop :=
  ∀ {text : Bytes}, text.length ≤ n → ∀ {fs : List (Bytes × JsonValue)} {name : Bytes}
    {st : List Frame} {w : JsonValue},
    run ⟨.object fs name :: st, .object false⟩ text = some w →
    ∃ es rest, Entries text es rest ∧ rest.length < text.length ∧
      (next (.object (fs ++ es)) st).run rest = some w

theorem run_literal {st : List Frame} {v w : JsonValue} {lit text : Bytes} (hne : lit ≠ [])
    (h : run ⟨st, .literal lit v⟩ text = some w) :
    ∃ rest, text = lit ++ rest ∧ (next v st).run rest = some w := by
  induction lit generalizing text with
  | nil => exact absurd rfl hne
  | cons c lit ih =>
    cases text with
    | nil => cases h
    | cons b text =>
      have h0 : b ≠ 0 := by
        rintro rfl
        cases h
      rw [run, if_neg h0] at h
      by_cases hbc : b = c
      · subst hbc
        cases lit with
        | nil =>
          simp only [feed, feedPlain, if_true] at h
          exact ⟨text, rfl, h⟩
        | cons d lit =>
          simp only [feed, feedPlain, if_true] at h
          obtain ⟨rest, rfl, hrun⟩ := ih (by simp) h
          exact ⟨rest, rfl, hrun⟩
      · cases lit <;> simp [feed, feedPlain, hbc] at h

/-- The first byte of a value, and what follows it. -/
theorem run_openValue {n : Nat} (hvs : ReadsValues n) (hes : ReadsEntries n) {b : UInt8}
    {text : Bytes} (hlen : text.length ≤ n) {st : List Frame} {p : Parser} {w : JsonValue}
    (hopen : openValue st b = some p) (h : p.run text = some w) :
    ∃ v rest, Value (b :: text) v rest ∧ rest.length ≤ text.length ∧
      (next v st).run rest = some w := by
  unfold openValue at hopen
  split_ifs at hopen with hobj harr hstr ht hf hn hneg hdig
  · cases hopen
    subst hobj
    obtain ⟨es, rest, hes, hlt, hrun⟩ := hes hlen h
    exact ⟨_, rest, .object hes, hlt.le, hrun⟩
  · cases hopen
    subst harr
    obtain ⟨vs, rest, hvs, hlt, hrun⟩ := hvs hlen h
    exact ⟨_, rest, .array hvs, hlt.le, hrun⟩
  · cases hopen
    subst hstr
    obtain ⟨s, rest, p, hs, hclose, hrun, hlt⟩ := run_chars_sound text.length le_rfl h
    simp only [closeString, Bool.false_eq_true, if_false, List.nil_append] at hclose
    cases hclose
    exact ⟨_, rest, .string hs, hlt.le, hrun⟩
  · cases hopen
    subst ht
    obtain ⟨rest, rfl, hrun⟩ := run_literal (by decide) h
    exact ⟨_, rest, .true rest, by simp, hrun⟩
  · cases hopen
    subst hf
    obtain ⟨rest, rfl, hrun⟩ := run_literal (by decide) h
    exact ⟨_, rest, .false rest, by simp, hrun⟩
  · cases hopen
    subst hn
    obtain ⟨rest, rfl, hrun⟩ := run_literal (by decide) h
    exact ⟨_, rest, .null rest, by simp, hrun⟩
  · cases hopen
    subst hneg
    obtain ⟨t, rest, n', v, rfl, hsteps, hends, hrun⟩ := Number.run_steps h
    have hread : Number.Reading [45] (.start true [45]) :=
      @Number.Reading.whole true [] ⟨fun _ hx => (List.not_mem_nil hx).elim, by simp⟩
        (Or.inl rfl) (by decide)
    exact ⟨v, rest, .number rest ((hread.steps hsteps).ends hends), by simp, hrun⟩
  · split at hopen
    · rename_i m hm
      cases hopen
      obtain ⟨t, rest, n', v, rfl, hsteps, hends, hrun⟩ := Number.run_steps h
      have hread := (Number.Reading.first hdig hm).steps hsteps
      exact ⟨v, rest, .number rest (hread.ends hends), by simp, hrun⟩
    · cases hopen

/-- Where a value is sought. -/
theorem run_seek {n : Nat} (hvs : ReadsValues n) (hes : ReadsEntries n) {text : Bytes}
    (hlen : text.length ≤ n + 1) {st : List Frame} {w : JsonValue}
    (h : run ⟨st, .seek false false⟩ text = some w) :
    (∃ us st' rest, st = .array us :: st' ∧ Ws text (93 :: rest) ∧ rest.length < text.length ∧
      (next (.array us) st').run rest = some w) ∨
    ∃ t v rest, Ws text t ∧ Value t v rest ∧ rest.length < text.length ∧
      (next v st).run rest = some w := by
  obtain ⟨b, rest, p, hws, hb, hfeed, hrun, hlt⟩ := run_token (skips_seek st false false) h
  simp only [feed, feedPlain, feedSeek, hb, Bool.false_eq_true, if_false] at hfeed
  split_ifs at hfeed with hclose
  · subst hclose
    cases st with
    | nil => cases hfeed
    | cons frame st =>
      cases frame with
      | array us =>
        cases hfeed
        exact Or.inl ⟨us, st, rest, rfl, hws, hlt, hrun⟩
      | object _ _ => cases hfeed
  · obtain ⟨v, rest', hv, hle, hrun'⟩ := run_openValue hvs hes (by omega) hfeed hrun
    exact Or.inr ⟨_, v, rest', hws, hv, by omega, hrun'⟩

/-- After a value in an array. -/
theorem run_moreValues_sound {n : Nat} (hvs : ReadsValues n) {text : Bytes}
    (hlen : text.length ≤ n) {us : List JsonValue} {st : List Frame} {w : JsonValue}
    (h : run ⟨.array us :: st, .seek true false⟩ text = some w) :
    ∃ vs rest, MoreValues text vs rest ∧ rest.length < text.length ∧
      (next (.array (us ++ vs)) st).run rest = some w := by
  obtain ⟨b, rest, p, hws, hb, hfeed, hrun, hlt⟩ := run_token (skips_seek _ true false) h
  simp only [feed, feedPlain, feedSeek, hb, Bool.false_eq_true, if_false, if_true] at hfeed
  split_ifs at hfeed with hclose hcomma
  · subst hclose
    cases hfeed
    refine ⟨[], rest, .close hws, hlt, ?_⟩
    rwa [List.append_nil]
  · subst hcomma
    cases hfeed
    obtain ⟨vs, rest', hvs', hlt', hrun'⟩ := hvs (by omega) hrun
    exact ⟨vs, rest', .comma hws hvs', by omega, hrun'⟩

/-- After an entry of an object. -/
theorem run_moreEntries_sound {n : Nat} (hes : ReadsEntries n) {text : Bytes}
    (hlen : text.length ≤ n) {fs : List (Bytes × JsonValue)} {name : Bytes} {st : List Frame}
    {w : JsonValue} (h : run ⟨.object fs name :: st, .object true⟩ text = some w) :
    ∃ es rest, MoreEntries text es rest ∧ rest.length < text.length ∧
      (next (.object (fs ++ es)) st).run rest = some w := by
  obtain ⟨b, rest, p, hws, hb, hfeed, hrun, hlt⟩ := run_token (skips_object _ true) h
  simp only [feed, feedPlain, feedObject, hb, Bool.false_eq_true, if_false, if_true,
    and_true] at hfeed
  split_ifs at hfeed with hquote hclose hcomma
  · subst hclose
    cases hfeed
    refine ⟨[], rest, .close hws, hlt, ?_⟩
    rwa [List.append_nil]
  · subst hcomma
    cases hfeed
    obtain ⟨es, rest', hes', hlt', hrun'⟩ := hes (by omega) hrun
    exact ⟨es, rest', .comma hws hes', by omega, hrun'⟩

/-- The colon and the value behind a name. -/
theorem run_colon {n : Nat} (hvs : ReadsValues n) (hes : ReadsEntries n) {text : Bytes}
    (hlen : text.length ≤ n) {fs : List (Bytes × JsonValue)} {name : Bytes} {st : List Frame}
    {w : JsonValue} (h : run ⟨.object fs name :: st, .seek false true⟩ text = some w) :
    ∃ t t' v rest, Ws text (58 :: t) ∧ Ws t t' ∧ Value t' v rest ∧ rest.length < text.length ∧
      run ⟨.object (fs ++ [(name, v)]) name :: st, .object true⟩ rest = some w := by
  obtain ⟨b, t, p, hws, hb, hfeed, hrun, hlt⟩ := run_token (skips_seek _ false true) h
  simp only [feed, feedPlain, feedSeek, hb, Bool.false_eq_true, if_false, if_true] at hfeed
  split_ifs at hfeed with hclose hcolon
  · cases hfeed
  · subst hcolon
    cases hfeed
    rcases run_seek hvs hes (by omega) hrun with ⟨_, _, _, hst, _⟩ | ⟨t', v, rest, hws', hv, hlt', hr⟩
    · cases hst
    · exact ⟨t, t', v, rest, hws, hws', hv, by omega, hr⟩

/-- By induction on the length: what stands inside brackets is
shorter. -/
theorem readsAll (n : Nat) : ReadsValues n ∧ ReadsEntries n := by
  induction n with
  | zero =>
    constructor
    · intro text hlen us st w h
      rw [List.eq_nil_of_length_eq_zero (Nat.le_zero.mp hlen)] at h
      cases h
    · intro text hlen fs name st w h
      rw [List.eq_nil_of_length_eq_zero (Nat.le_zero.mp hlen)] at h
      cases h
  | succ n ih =>
    obtain ⟨hvs, hes⟩ := ih
    constructor
    · intro text hlen us st w h
      rcases run_seek hvs hes hlen h with ⟨us', st', rest, hst, hws, hlt, hrun⟩ |
        ⟨t, v, rest, hws, hv, hlt, hrun⟩
      · cases hst
        refine ⟨[], rest, .close hws, hlt, ?_⟩
        rwa [List.append_nil]
      · obtain ⟨vs, rest', hmore, hlt', hrun'⟩ := run_moreValues_sound hvs (by omega) hrun
        refine ⟨v :: vs, rest', .value hws hv hmore, by omega, ?_⟩
        rwa [List.append_assoc] at hrun'
    · intro text hlen fs name st w h
      obtain ⟨b, rest, p, hws, hb, hfeed, hrun, hlt⟩ := run_token (skips_object _ false) h
      simp only [feed, feedPlain, feedObject, hb, Bool.false_eq_true, if_false, and_false] at hfeed
      split_ifs at hfeed with hquote hclose
      · subst hquote
        cases hfeed
        obtain ⟨s, t₂, p, hs, hc, hrun, hlt₂⟩ := run_chars_sound rest.length le_rfl hrun
        simp only [closeString, if_true, List.nil_append] at hc
        cases hc
        obtain ⟨t₃, t₄, v, t₅, hcolon, hws', hv, hlt₅, hrun⟩ :=
          run_colon hvs hes (by omega) hrun
        obtain ⟨es, rest', hmore, hlt', hrun'⟩ := run_moreEntries_sound hes (by omega) hrun
        refine ⟨(s, v) :: es, rest', .entry hws hs hcolon hws' hv hmore, by omega, ?_⟩
        rwa [List.append_assoc] at hrun'
      · subst hclose
        cases hfeed
        refine ⟨[], rest, .close hws, hlt, ?_⟩
        rwa [List.append_nil]

/-- After the root value. -/
theorem run_done_iff {st : List Frame} {v w : JsonValue} {text : Bytes} :
    run ⟨st, .done v⟩ text = some w ↔ v = w ∧ ∃ rest, Ws text rest ∧ Ended rest := by
  induction text with
  | nil =>
    constructor
    · intro h
      cases h
      exact ⟨rfl, [], .nil _, rfl⟩
    · rintro ⟨rfl, _⟩
      rfl
  | cons b text ih =>
    by_cases h0 : b = 0
    · subst h0
      constructor
      · intro h
        cases h
        exact ⟨rfl, _, .nil _, rfl⟩
      · rintro ⟨rfl, _⟩
        rfl
    · rw [run, if_neg h0]
      by_cases hb : isWhitespace b = true
      · simp only [feed, feedPlain, hb, if_true]
        rw [ih]
        refine and_congr_right fun _ => ⟨?_, ?_⟩
        · rintro ⟨rest, hws, hend⟩
          exact ⟨rest, .cons hb hws, hend⟩
        · rintro ⟨rest, hws, hend⟩
          cases hws with
          | nil => exact absurd hend h0
          | cons _ hws => exact ⟨rest, hws, hend⟩
      · simp only [feed, feedPlain, hb, if_false, Bool.false_eq_true]
        constructor
        · intro h
          cases h
        · rintro ⟨_, rest, hws, hend⟩
          cases hws with
          | nil => exact absurd hend h0
          | cons hb' _ => exact absurd hb' hb

end Parser

open Grammar in
/-- `json_parse_ex` accepts the texts of the grammar, no others, and
returns the value that the grammar reads. -/
theorem jsonParse_eq_some_iff {text : Bytes} {v : JsonValue} :
    jsonParse text = some v ↔ Text (skipBom text) v := by
  unfold jsonParse
  constructor
  · intro h
    obtain ⟨hvs, hes⟩ := Parser.readsAll (skipBom text).length
    rcases Parser.run_seek hvs hes (Nat.le_succ _) h with ⟨_, _, _, hst, _⟩ |
      ⟨t, x, rest, hws, hv, _, hrun⟩
    · cases hst
    · obtain ⟨rfl, rest', hws', hend⟩ := Parser.run_done_iff.mp hrun
      exact .mk hws hv hws' hend
  · rintro ⟨hws, hv, hws', hend⟩
    rw [Parser.run_ws (Parser.skips_seek ..) hws,
      Parser.run_value hv (.of_ws hws' (.ended hend)) []]
    exact Parser.run_done_iff.mpr ⟨rfl, _, hws', hend⟩

open Grammar in
/-- Without limits for lengths `json_parse_ex` decides the grammar, which
gives a text one value at most. `jsonParseLimited_decides` has the
limits. -/
theorem jsonParse_decides (text : Bytes) :
    (∀ v, jsonParse text = some v ↔ Text (skipBom text) v) ∧
    (jsonParse text = none ↔ ¬ ∃ v, Text (skipBom text) v) ∧
    ∀ v w, Text (skipBom text) v → Text (skipBom text) w → v = w := by
  refine ⟨fun v => jsonParse_eq_some_iff, ?_, fun v w hv hw => ?_⟩
  · rw [Option.eq_none_iff_forall_ne_some, not_exists]
    exact forall_congr' fun v => not_congr jsonParse_eq_some_iff
  · rw [← jsonParse_eq_some_iff] at hv hw
    exact Option.some.inj (hv.symm.trans hw)

end Pyoneer.Shared
