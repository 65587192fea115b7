/-
Pyoneer.Shared.JsonParseTheorems — `json_parse_ex` on texts that are put
together piece by piece.

`Feeds p text q` says that a piece takes the parser from `p` to `q`,
whatever follows. The pieces of a container are of this kind, and so is
a string, byte by byte. A number is not: it ends only with the byte
after it. `Reads text v` is therefore about texts that are followed by a
delimiter, or by nothing.

The last part compares the parse of a text with the parse of one of its
beginnings.
-/
import Pyoneer.Shared.JsonParse
import Pyoneer.Shared.JsonBuild
import Mathlib.Tactic.IntervalCases

namespace Pyoneer.Shared

namespace Parser

/-! ## Pieces -/

/-- The text takes the parser from `p` to `q`. -/
def Feeds (p : Parser) (text : Bytes) (q : Parser) : Prop :=
  ∀ rest, p.run (text ++ rest) = q.run rest

theorem Feeds.nil (p : Parser) : Feeds p [] p := fun _ => rfl

theorem Feeds.append {p q r : Parser} {a b : Bytes} (ha : Feeds p a q) (hb : Feeds q b r) :
    Feeds p (a ++ b) r := by
  intro rest
  rw [List.append_assoc, ha, hb]

theorem Feeds.byte {p q : Parser} {b : UInt8} (hb : b ≠ 0) (h : p.feed b = some q) :
    Feeds p [b] q := by
  intro rest
  rw [List.singleton_append, run, if_neg hb, h]

theorem Feeds.cons {p q r : Parser} {b : UInt8} {text : Bytes} (hb : b ≠ 0)
    (h : p.feed b = some q) (ht : Feeds q text r) : Feeds p (b :: text) r :=
  (Feeds.byte hb h).append ht

section Pieces

variable (st : List Frame)

theorem feeds_openObject :
    Feeds ⟨st, .seek false false⟩ [123] ⟨.object [] [] :: st, .object false⟩ :=
  .byte (by decide) rfl

theorem feeds_openArray :
    Feeds ⟨st, .seek false false⟩ [91] ⟨.array [] :: st, .seek false false⟩ :=
  .byte (by decide) rfl

theorem feeds_space_seek (c k : Bool) : Feeds ⟨st, .seek c k⟩ [32] ⟨st, .seek c k⟩ :=
  .byte (by decide) rfl

theorem feeds_space_object (c : Bool) : Feeds ⟨st, .object c⟩ [32] ⟨st, .object c⟩ :=
  .byte (by decide) rfl

theorem feeds_comma_seek : Feeds ⟨st, .seek true false⟩ [44] ⟨st, .seek false false⟩ :=
  .byte (by decide) rfl

theorem feeds_comma_object : Feeds ⟨st, .object true⟩ [44] ⟨st, .object false⟩ :=
  .byte (by decide) rfl

theorem feeds_colon : Feeds ⟨st, .seek false true⟩ [58] ⟨st, .seek false false⟩ :=
  .byte (by decide) rfl

theorem feeds_closeArray (vs : List JsonValue) (c : Bool) :
    Feeds ⟨.array vs :: st, .seek c false⟩ [93] (next (.array vs) st) :=
  .byte (by decide) rfl

theorem feeds_closeObject (es : List (Bytes × JsonValue)) (name : Bytes) (c : Bool) :
    Feeds ⟨.object es name :: st, .object c⟩ [125] (next (.object es) st) :=
  .byte (by decide) rfl

theorem feeds_openString : Feeds ⟨st, .seek false false⟩ [34] ⟨st, .string false []⟩ :=
  .byte (by decide) rfl

theorem feeds_openName : Feeds ⟨st, .object false⟩ [34] ⟨st, .string true []⟩ :=
  .byte (by decide) rfl

theorem feeds_closeString (s : Bytes) : Feeds ⟨st, .string false s⟩ [34] (next (.string s) st) :=
  .byte (by decide) rfl

theorem feeds_closeName (es : List (Bytes × JsonValue)) (old name : Bytes) :
    Feeds ⟨.object es old :: st, .string true name⟩ [34]
      ⟨.object es name :: st, .seek false true⟩ :=
  .byte (by decide) rfl

end Pieces

/-! ## Strings -/

/-- Between quotes, the text stands for the bytes `s`. -/
def Spells (text s : Bytes) : Prop :=
  ∀ (st : List Frame) (name : Bool) (acc : Bytes),
    Feeds ⟨st, .string name acc⟩ text ⟨st, .string name (acc ++ s)⟩

theorem Spells.nil : Spells [] [] := by
  intro st name acc
  rw [List.append_nil]
  exact .nil _

theorem Spells.append {a b s t : Bytes} (ha : Spells a s) (hb : Spells b t) :
    Spells (a ++ b) (s ++ t) := by
  intro st name acc
  rw [← List.append_assoc acc]
  exact (ha st name acc).append (hb st name (acc ++ s))

/-- A byte that stands for itself. -/
theorem Spells.byte {b : UInt8} (h0 : b ≠ 0) (hq : b ≠ 34) (hs : b ≠ 92) : Spells [b] [b] := by
  intro st name acc
  refine .byte h0 ?_
  simp [feed, feedPlain, hq, hs]

/-- An escape of two bytes. -/
theorem Spells.escape {b : UInt8} (h0 : b ≠ 0) (hu : b ≠ 117) :
    Spells [92, b] [unescape b] := by
  intro st name acc
  refine .cons (q := ⟨st, .escaped name acc⟩) (by decide) rfl (.byte h0 ?_)
  simp [feed, feedPlain, hu]

theorem Spells.flatMap {α : Type} {f g : α → Bytes} (xs : List α)
    (h : ∀ x ∈ xs, Spells (f x) (g x)) : Spells (xs.flatMap f) (xs.flatMap g) := by
  induction xs with
  | nil => exact .nil
  | cons x xs ih =>
    rw [List.flatMap_cons, List.flatMap_cons]
    have hx := h x (List.mem_cons_self ..)
    exact hx.append (ih fun y hy => h y (List.mem_cons_of_mem _ hy))

/-- The name of an entry. -/
theorem Spells.name {text s : Bytes} (h : Spells text s) (st : List Frame)
    (es : List (Bytes × JsonValue)) (old : Bytes) :
    Feeds ⟨.object es old :: st, .object false⟩ (34 :: text ++ [34])
      ⟨.object es s :: st, .seek false true⟩ := by
  have hbody := h (.object es old :: st) true []
  exact ((feeds_openName _).append hbody).append (feeds_closeName st es old s)

end Parser

/-! ## Values -/

open Pyoneer.Shared.Parser

/-- What follows a value: nothing, a space, a newline, a comma, or a
closing bracket. -/
def Delimited (rest : Bytes) : Prop := ∀ b ∈ rest.head?, b ∈ [32, 10, 44, 93, 125]

/-- Where a value is sought, the text stands for `v`. -/
def Reads (text : Bytes) (v : JsonValue) : Prop :=
  ∀ (st : List Frame) (rest : Bytes), Delimited rest →
    Parser.run ⟨st, .seek false false⟩ (text ++ rest) = (next v st).run rest

theorem Delimited.cons {b : UInt8} {rest : Bytes} (h : b ∈ [32, 10, 44, 93, 125]) :
    Delimited (b :: rest) := by
  intro c hc
  obtain rfl : b = c := by simpa using hc
  exact h

theorem Reads.of_feeds {text : Bytes} {v : JsonValue}
    (h : ∀ st, Feeds ⟨st, .seek false false⟩ text (next v st)) : Reads text v :=
  fun st rest _ => h st rest

theorem Parser.Spells.reads {text s : Bytes} (h : Spells text s) :
    Reads (34 :: text ++ [34]) (.string s) := by
  refine .of_feeds fun st => ?_
  have hbody := h st false []
  exact ((feeds_openString _).append hbody).append (feeds_closeString st s)

theorem reads_null : Reads (ascii "null") .null := .of_feeds fun _ _ => rfl

theorem reads_true : Reads (ascii "true") (.boolean true) := .of_feeds fun _ _ => rfl

theorem reads_false : Reads (ascii "false") (.boolean false) := .of_feeds fun _ _ => rfl

theorem reads_emptyObject : Reads (ascii "\x7b\x7d") (.object []) := .of_feeds fun _ _ => rfl

theorem reads_emptyArray : Reads (ascii "[]") (.array []) := .of_feeds fun _ _ => rfl

/-- A whole text. -/
theorem Reads.parse {text : Bytes} {v : JsonValue} (h : Reads text v)
    (hbom : skipBom text = text) : jsonParse text = some v := by
  have hrun := h [] [] (by simp [Delimited])
  rw [List.append_nil] at hrun
  rw [jsonParse, hbom, hrun]
  rfl

/-! ## Integers -/

/-- The byte of a digit. -/
def digitByte (d : Nat) : UInt8 := (Nat.digitChar d).toNat.toUInt8

theorem digitByte_spec : ∀ d < 10, digitByte d ≠ 0 ∧ isDigit (digitByte d) = true ∧
    digitValue (digitByte d) = d ∧ (digitByte d = 48 ↔ d = 0) := by
  decide

theorem serializeNat_lt {m : Nat} (h : m < 10) : serializeNat m = [digitByte m] := by
  rw [serializeNat, Nat.toDigits_of_lt_base h]
  rfl

theorem serializeNat_ge {m : Nat} (h : 10 ≤ m) :
    serializeNat m = serializeNat (m / 10) ++ [digitByte (m % 10)] := by
  rw [serializeNat, serializeNat, Nat.toDigits_of_base_le (by decide) h, List.map_append]
  rfl

namespace Number

/-- The digits read so far are those of `m`. -/
structure Holds (neg : Bool) (text : Bytes) (m : Nat) (n : Number) : Prop where
  e : n.e = false
  digits : n.digits ≠ 0
  negative : n.negative = neg
  text : n.text = text
  small : m ≤ jsonIntMax → n.isDouble = false ∧ n.value = m
  large : jsonIntMax < m → n.isDouble = true
  zero : m ≠ 0 → n.zero = false

/-- The integer that has been read, which becomes a double when it does
not fit. -/
theorem Holds.close {neg : Bool} {text : Bytes} {m : Nat} {n : Number} (h : Holds neg text m n) :
    n.close = if m ≤ jsonIntMax then .integer (if neg then -(m : Int) else m)
      else .double text := by
  by_cases hm : m ≤ jsonIntMax
  · rw [Number.close, (h.small hm).1, (h.small hm).2, h.negative, if_pos hm]
    rfl
  · rw [Number.close, h.large (Nat.lt_of_not_le hm), h.text, if_neg hm]
    rfl

theorem Holds.first (neg : Bool) (text : Bytes) {d : Nat} (hd : d < 10) :
    ∃ n, (Number.start neg text).step (digitByte d) = .more n ∧
      Holds neg (text ++ [digitByte d]) d n := by
  obtain ⟨_, hdigit, hvalue, hzero⟩ := digitByte_spec d hd
  have hfits : wouldOverflow 0 (digitByte d) = false := by simp [wouldOverflow]
  refine ⟨_, by simp only [step, hdigit, if_true, digit, Number.start, hfits]; rfl, ?_⟩
  have hle : d ≤ jsonIntMax := by
    have : 9 ≤ jsonIntMax := by decide
    omega
  refine ⟨rfl, by simp, rfl, rfl, fun _ => ⟨rfl, by simp [hvalue]⟩, fun h => ?_, fun h => ?_⟩
  · omega
  · simp [hzero, h]

theorem Holds.more {neg : Bool} {text : Bytes} {m d : Nat} {n : Number} (h : Holds neg text m n)
    (hm : m ≠ 0) (hd : d < 10) :
    ∃ n', n.step (digitByte d) = .more n' ∧ Holds neg (text ++ [digitByte d]) (m * 10 + d) n' := by
  obtain ⟨_, hdigit, hvalue, _⟩ := digitByte_spec d hd
  by_cases hbig : jsonIntMax < m
  · refine ⟨_, by simp only [step, hdigit, if_true, digit, h.e, h.large hbig]; rfl, ?_⟩
    refine ⟨rfl, by simp, h.negative, by simp [h.text], fun hx => ?_, fun _ => rfl,
      fun _ => h.zero hm⟩
    omega
  · obtain ⟨hdouble, hval⟩ := h.small (Nat.le_of_not_lt hbig)
    have hover : wouldOverflow n.value (digitByte d) = true ↔ jsonIntMax < m * 10 + d := by
      have hmax : 9 ≤ jsonIntMax := by decide
      rw [wouldOverflow, hval, hvalue, decide_eq_true_eq, Nat.div_lt_iff_lt_mul (by decide)]
      omega
    by_cases hlt : jsonIntMax < m * 10 + d
    · refine ⟨_, by simp only [step, hdigit, if_true, digit, h.e, hdouble, h.zero hm,
        hover.mpr hlt]; rfl, ?_⟩
      refine ⟨rfl, by simp, h.negative, by simp [h.text], fun hx => ?_, fun _ => rfl,
        fun _ => rfl⟩
      omega
    · have hfits : wouldOverflow n.value (digitByte d) = false := by
        rw [← Bool.not_eq_true, hover]
        exact hlt
      refine ⟨_, by simp only [step, hdigit, if_true, digit, h.e, hdouble, h.zero hm, hfits]; rfl,
        ?_⟩
      refine ⟨rfl, by simp, h.negative, by simp [h.text], fun _ => ⟨rfl, ?_⟩,
        fun hx => absurd hx hlt, fun _ => ?_⟩
      · simp [hval, hvalue]
      · simp [h.digits]

/-- A delimiter ends the number. -/
theorem Holds.ends {neg : Bool} {text : Bytes} {m : Nat} {n : Number} {b : UInt8}
    (h : Holds neg text m n) (hb : b ∈ [0, 32, 10, 44, 93, 125]) : n.step b = .ends n.close := by
  have hfinish : b ≠ 101 ∧ b ≠ 69 ∧ b ≠ 43 ∧ b ≠ 45 ∧ b ≠ 46 ∧ isDigit b = false := by
    simp only [List.mem_cons, List.not_mem_nil, or_false] at hb
    rcases hb with rfl | rfl | rfl | rfl | rfl | rfl <;> decide
  simp [step, finish, hfinish, h.e, h.digits]

end Number

/-- The digits of `m`, where a number can begin. -/
theorem feeds_serializeNat {p : Parser} {st : List Frame} {neg : Bool} {text : Bytes}
    (hp : ∀ d < 10, ∀ n, (Number.start neg text).step (digitByte d) = .more n →
      p.feed (digitByte d) = some ⟨st, .number n⟩) (m : Nat) :
    ∃ n, Feeds p (serializeNat m) ⟨st, .number n⟩ ∧
      Number.Holds neg (text ++ serializeNat m) m n := by
  induction m using Nat.strongRecOn with
  | _ m ih =>
    by_cases hm : m < 10
    · obtain ⟨n, hstep, hholds⟩ := Number.Holds.first neg text hm
      rw [serializeNat_lt hm]
      exact ⟨n, .byte (digitByte_spec m hm).1 (hp m hm n hstep), hholds⟩
    · have hd : m % 10 < 10 := Nat.mod_lt _ (by decide)
      obtain ⟨n, hfeeds, hholds⟩ := ih (m / 10) (by omega)
      obtain ⟨n', hstep, hholds'⟩ := hholds.more (d := m % 10) (by omega) hd
      have hfeed : Parser.feed ⟨st, .number n⟩ (digitByte (m % 10)) = some ⟨st, .number n'⟩ := by
        simp [feed, hstep]
      rw [serializeNat_ge (Nat.le_of_not_lt hm), ← List.append_assoc]
      refine ⟨n', hfeeds.append (.byte (digitByte_spec _ hd).1 hfeed), ?_⟩
      have hsum : m / 10 * 10 + m % 10 = m := by omega
      rwa [hsum] at hholds'

/-- What follows a number ends it. -/
theorem Number.Holds.run {neg : Bool} {text rest : Bytes} {m : Nat} {n : Number}
    (h : Holds neg text m n) (hrest : Delimited rest) (st : List Frame) :
    Parser.run ⟨st, .number n⟩ rest = (Parser.next n.close st).run rest := by
  have hpc : ∀ k, (Parser.next n.close st).pc ≠ .number k := by
    intro k
    cases st with
    | nil => simp [Parser.next]
    | cons f _ => cases f <;> simp [Parser.next]
  cases rest with
  | nil =>
    cases st with
    | nil => simp [Parser.run, atEnd, Parser.next, h.ends (b := 0) (by decide)]
    | cons f _ => cases f <;> simp [Parser.run, atEnd, Parser.next]
  | cons b rest =>
    have hb : b ∈ ([32, 10, 44, 93, 125] : List UInt8) := hrest b (by simp)
    have h0 : b ≠ 0 := by
      rintro rfl
      simp at hb
    have hfeed : (Parser.next n.close st).feed b
        = feedPlain (Parser.next n.close st).stack (Parser.next n.close st).pc b := by
      unfold feed
      split
      · rename_i k hk
        exact absurd hk (hpc k)
      · rfl
    simp only [Parser.run, h0, if_false, hfeed]
    simp only [feed, h.ends (List.mem_cons_of_mem _ hb)]

/-- The value that the text of an integer is read as. -/
def rereadInteger (n : Int) : JsonValue :=
  if n.natAbs ≤ jsonIntMax then .integer n else .double (serializeInteger n)

theorem reads_serializeInteger (n : Int) : Reads (serializeInteger n) (rereadInteger n) := by
  intro st rest hrest
  by_cases hneg : n < 0
  · have hp : ∀ d < 10, ∀ k, (Number.start true [45]).step (digitByte d) = .more k →
        Parser.feed ⟨st, .number (.start true [45])⟩ (digitByte d) = some ⟨st, .number k⟩ := by
      intro d _ k hk
      simp [feed, hk]
    obtain ⟨k, hfeeds, hholds⟩ := feeds_serializeNat hp n.natAbs
    have hsign : Feeds ⟨st, .seek false false⟩ [45] ⟨st, .number (.start true [45])⟩ :=
      .byte (by decide) rfl
    have hclose : k.close = rereadInteger n := by
      rw [hholds.close, rereadInteger, serializeInteger, if_pos hneg]
      have hn : -(n.natAbs : Int) = n := by omega
      simp only [if_true, hn, List.singleton_append]
    rw [serializeInteger, if_pos hneg, ← List.singleton_append, hsign.append hfeeds,
      hholds.run hrest, hclose]
  · have hp : ∀ d < 10, ∀ k, (Number.start false []).step (digitByte d) = .more k →
        Parser.feed ⟨st, .seek false false⟩ (digitByte d) = some ⟨st, .number k⟩ := by
      intro d hd k hk
      have hseek : ∃ k, (Number.start false []).step (digitByte d) = .more k ∧
          Parser.feed ⟨st, .seek false false⟩ (digitByte d) = some ⟨st, .number k⟩ := by
        interval_cases d <;> exact ⟨_, rfl, rfl⟩
      obtain ⟨k', hk', hfeed⟩ := hseek
      cases hk.symm.trans hk'
      exact hfeed
    obtain ⟨k, hfeeds, hholds⟩ := feeds_serializeNat hp n.natAbs
    have hclose : k.close = rereadInteger n := by
      rw [hholds.close, rereadInteger, serializeInteger, if_neg hneg]
      have hn : (n.natAbs : Int) = n := by omega
      simp only [Bool.false_eq_true, if_false, hn, List.nil_append]
    rw [serializeInteger, if_neg hneg, hfeeds, hholds.run hrest, hclose]

/-! ## What `json_serialize` writes -/

/-- The escapes of the two directions fit together. -/
theorem escapeOf_spec {b c : UInt8} (h : escapeOf b = some c) :
    c ≠ 0 ∧ c ≠ 117 ∧ unescape c = b := by
  unfold escapeOf at h
  split_ifs at h <;> cases h <;> subst_vars <;> decide

theorem spells_serializeByte {b : UInt8} (hb : b ≠ 0) : Spells (serializeByte b) [b] := by
  unfold serializeByte
  cases hc : escapeOf b with
  | some c =>
    obtain ⟨h0, hu, hback⟩ := escapeOf_spec hc
    have hspells := Spells.escape h0 hu
    rwa [hback] at hspells
  | none =>
    refine .byte hb ?_ ?_
    · rintro rfl
      cases hc
    · rintro rfl
      cases hc

theorem spells_serializeString {s : Bytes} (hs : (0 : UInt8) ∉ s) :
    Spells (serializeString s) s := by
  have hspells := Spells.flatMap (g := fun b => [b]) s fun b hb =>
    spells_serializeByte (b := b) (fun h0 => hs (h0 ▸ hb))
  rwa [List.flatMap_singleton'] at hspells

mutual

/-- No double, and no NUL in a string or a name. -/
def Plain : JsonValue → Prop
  | .object es => PlainEntries es
  | .array vs => PlainValues vs
  | .double _ => False
  | .string s => (0 : UInt8) ∉ s
  | .integer _ | .boolean _ | .null => True

def PlainEntry : Bytes × JsonValue → Prop
  | (name, v) => (0 : UInt8) ∉ name ∧ Plain v

def PlainEntries : List (Bytes × JsonValue) → Prop
  | [] => True
  | e :: es => PlainEntry e ∧ PlainEntries es

def PlainValues : List JsonValue → Prop
  | [] => True
  | v :: vs => Plain v ∧ PlainValues vs

end

mutual

/-- What the serialized value is read as: the same, as far as the
integers fit. -/
def reread : JsonValue → JsonValue
  | .object es => .object (rereadEntries es)
  | .array vs => .array (rereadValues vs)
  | .integer n => rereadInteger n
  | .double text => .double text
  | .string s => .string s
  | .boolean b => .boolean b
  | .null => .null

def rereadEntry : Bytes × JsonValue → Bytes × JsonValue
  | (name, v) => (name, reread v)

def rereadEntries : List (Bytes × JsonValue) → List (Bytes × JsonValue)
  | [] => []
  | e :: es => rereadEntry e :: rereadEntries es

def rereadValues : List JsonValue → List JsonValue
  | [] => []
  | v :: vs => reread v :: rereadValues vs

end

theorem delimited_entries (es : List (Bytes × JsonValue)) (rest : Bytes) :
    Delimited (serializeEntries es ++ (ascii " \x7d" ++ rest)) := by
  cases es with
  | nil => exact .cons (by decide)
  | cons e es => exact .cons (by decide)

theorem delimited_values (vs : List JsonValue) (rest : Bytes) :
    Delimited (serializeValues vs ++ (ascii " ]" ++ rest)) := by
  cases vs with
  | nil => exact .cons (by decide)
  | cons v vs => exact .cons (by decide)

mutual

/-- `json_parse_ex` inverts `json_serialize`. -/
theorem reads_jsonSerialize : ∀ v : JsonValue, Plain v → Reads (jsonSerialize v) (reread v)
  | .object [], _ => reads_emptyObject
  | .object (e :: es), h => by
      intro st rest _
      have hopen : Feeds ⟨st, .seek false false⟩ (ascii "\x7b ")
          ⟨.object [] [] :: st, .object false⟩ :=
        (feeds_openObject st).append (feeds_space_object _ _)
      simp only [jsonSerialize, List.append_assoc]
      rw [hopen, run_serializeEntry e h.1 st [] [] _ (delimited_entries es rest),
        List.nil_append, run_serializeEntries es h.2]
      rfl
  | .array [], _ => reads_emptyArray
  | .array (v :: vs), h => by
      intro st rest _
      have hopen : Feeds ⟨st, .seek false false⟩ (ascii "[ ")
          ⟨.array [] :: st, .seek false false⟩ :=
        (feeds_openArray st).append (feeds_space_seek _ _ _)
      simp only [jsonSerialize, List.append_assoc]
      rw [hopen, reads_jsonSerialize v h.1 _ _ (delimited_values vs rest), next, List.nil_append,
        run_serializeValues vs h.2]
      rfl
  | .integer n, _ => reads_serializeInteger n
  | .double _, h => h.elim
  | .string s, h => (spells_serializeString h).reads
  | .boolean true, _ => reads_true
  | .boolean false, _ => reads_false
  | .null, _ => reads_null

theorem run_serializeEntry : ∀ e : Bytes × JsonValue, PlainEntry e →
    ∀ (st : List Frame) (acc : List (Bytes × JsonValue)) (old rest : Bytes), Delimited rest →
      Parser.run ⟨.object acc old :: st, .object false⟩ (serializeEntry e ++ rest)
        = Parser.run ⟨.object (acc ++ [rereadEntry e]) e.1 :: st, .object true⟩ rest
  | (name, v), h, st, acc, old, rest, hrest => by
      have hname := (spells_serializeString h.1).name st acc old
      have hcolon : Feeds ⟨.object acc name :: st, .seek false true⟩ [58, 32]
          ⟨.object acc name :: st, .seek false false⟩ :=
        (feeds_colon _).append (feeds_space_seek _ _ _)
      have htext : serializeEntry (name, v) ++ rest
          = (34 :: serializeString name ++ [34]) ++ ([58, 32] ++ (jsonSerialize v ++ rest)) := by
        simp [serializeEntry]
      rw [htext, hname, hcolon, reads_jsonSerialize v h.2 _ _ hrest]
      rfl

theorem run_serializeEntries : ∀ es : List (Bytes × JsonValue), PlainEntries es →
    ∀ (st : List Frame) (acc : List (Bytes × JsonValue)) (old rest : Bytes),
      Parser.run ⟨.object acc old :: st, .object true⟩
          (serializeEntries es ++ (ascii " \x7d" ++ rest))
        = (next (.object (acc ++ rereadEntries es)) st).run rest
  | [], _, st, acc, old, rest => by
      have hclose : Feeds ⟨.object acc old :: st, .object true⟩ (ascii " \x7d")
          (next (.object acc) st) :=
        (feeds_space_object _ _).append (feeds_closeObject st acc old true)
      rw [serializeEntries, List.nil_append, hclose, rereadEntries, List.append_nil]
  | e :: es, h, st, acc, old, rest => by
      have hcomma : Feeds ⟨.object acc old :: st, .object true⟩ (ascii ", ")
          ⟨.object acc old :: st, .object false⟩ :=
        (feeds_comma_object _).append (feeds_space_object _ _)
      simp only [serializeEntries, List.append_assoc]
      rw [hcomma, run_serializeEntry e h.1 _ _ _ _ (delimited_entries es rest),
        run_serializeEntries es h.2, rereadEntries, List.append_assoc, List.singleton_append]

theorem run_serializeValues : ∀ vs : List JsonValue, PlainValues vs →
    ∀ (st : List Frame) (acc : List JsonValue) (rest : Bytes),
      Parser.run ⟨.array acc :: st, .seek true false⟩ (serializeValues vs ++ (ascii " ]" ++ rest))
        = (next (.array (acc ++ rereadValues vs)) st).run rest
  | [], _, st, acc, rest => by
      have hclose : Feeds ⟨.array acc :: st, .seek true false⟩ (ascii " ]")
          (next (.array acc) st) :=
        (feeds_space_seek _ _ _).append (feeds_closeArray st acc true)
      rw [serializeValues, List.nil_append, hclose, rereadValues, List.append_nil]
  | v :: vs, h, st, acc, rest => by
      have hcomma : Feeds ⟨.array acc :: st, .seek true false⟩ (ascii ", ")
          ⟨.array acc :: st, .seek false false⟩ :=
        (feeds_comma_seek _).append (feeds_space_seek _ _ _)
      simp only [serializeValues, List.append_assoc]
      rw [hcomma, reads_jsonSerialize v h.1 _ _ (delimited_values vs rest), next,
        run_serializeValues vs h.2, rereadValues, List.append_assoc, List.singleton_append]

end

/-- A serialized object is parsed as an object. -/
theorem jsonParse_jsonSerialize {es : List (Bytes × JsonValue)} (h : Plain (.object es)) :
    jsonParse (jsonSerialize (.object es)) = some (.object (rereadEntries es)) := by
  have hreads := reads_jsonSerialize (.object es) h
  refine hreads.parse ?_
  cases es <;> rfl

/-! ## Plain values -/

theorem plainEntries_append {es : List (Bytes × JsonValue)} {e : Bytes × JsonValue}
    (hes : PlainEntries es) (he : PlainEntry e) : PlainEntries (es ++ [e]) := by
  induction es with
  | nil => exact ⟨he, trivial⟩
  | cons x es ih => exact ⟨hes.1, ih hes.2⟩

theorem plain_push {obj v : JsonValue} {key : Bytes} (hobj : Plain obj)
    (hkey : (0 : UInt8) ∉ key) (hv : Plain v) : Plain (jsonObjectPush obj key v) := by
  cases obj with
  | object es => exact plainEntries_append hobj ⟨hkey, hv⟩
  | _ => exact hobj

theorem plainValues_map {α : Type} (f : α → JsonValue) (xs : List α) (h : ∀ x, Plain (f x)) :
    PlainValues (xs.map f) := by
  induction xs with
  | nil => trivial
  | cons x xs ih => exact ⟨h x, ih⟩

theorem zero_not_mem_serializeNat (n : Nat) : (0 : UInt8) ∉ serializeNat n := by
  induction n using Nat.strongRecOn with
  | _ n ih =>
    by_cases hn : n < 10
    · rw [serializeNat_lt hn, List.mem_singleton]
      exact (digitByte_spec n hn).1.symm
    · rw [serializeNat_ge (by omega), List.mem_append, List.mem_singleton]
      have hlast := (digitByte_spec (n % 10) (Nat.mod_lt n (by omega))).1
      rintro (h | h)
      · exact ih (n / 10) (by omega) h
      · exact hlast h.symm

theorem zero_not_mem_serializeInteger (n : Int) : (0 : UInt8) ∉ serializeInteger n := by
  have hn := zero_not_mem_serializeNat n.natAbs
  unfold serializeInteger
  split
  · simp [hn]
  · exact hn

theorem zero_not_mem_serializeString {s : Bytes} (h : (0 : UInt8) ∉ s) :
    (0 : UInt8) ∉ serializeString s := by
  simp only [serializeString, List.mem_flatMap, not_exists, not_and]
  intro b hb hz
  unfold serializeByte at hz
  split at hz
  · rename_i c hc
    have hc0 := (escapeOf_spec hc).1
    simp [Ne.symm hc0] at hz
  · rw [List.mem_singleton.mp hz] at h
    exact h hb

mutual

/-- What is written has no NUL. -/
theorem zero_not_mem_jsonSerialize : ∀ v : JsonValue, Plain v → (0 : UInt8) ∉ jsonSerialize v
  | .object [], _ => by decide
  | .object (e :: es), h => by
      have he := zero_not_mem_serializeEntry e h.1
      have hes := zero_not_mem_serializeEntries es h.2
      have hopen : (0 : UInt8) ∉ ascii "\x7b " := by decide
      have hclose : (0 : UInt8) ∉ ascii " \x7d" := by decide
      simp [jsonSerialize, he, hes, hopen, hclose]
  | .array [], _ => by decide
  | .array (v :: vs), h => by
      have hv := zero_not_mem_jsonSerialize v h.1
      have hvs := zero_not_mem_serializeValues vs h.2
      have hopen : (0 : UInt8) ∉ ascii "[ " := by decide
      have hclose : (0 : UInt8) ∉ ascii " ]" := by decide
      simp [jsonSerialize, hv, hvs, hopen, hclose]
  | .integer n, _ => by
      rw [jsonSerialize]
      exact zero_not_mem_serializeInteger n
  | .double _, h => h.elim
  | .string s, h => by
      have hs := zero_not_mem_serializeString h
      simp [jsonSerialize, hs]
  | .boolean true, _ => by decide
  | .boolean false, _ => by decide
  | .null, _ => by decide

theorem zero_not_mem_serializeEntry : ∀ e : Bytes × JsonValue, PlainEntry e →
    (0 : UInt8) ∉ serializeEntry e
  | (name, v), h => by
      have hname := zero_not_mem_serializeString h.1
      have hv := zero_not_mem_jsonSerialize v h.2
      simp [serializeEntry, hname, hv]

theorem zero_not_mem_serializeEntries : ∀ es : List (Bytes × JsonValue), PlainEntries es →
    (0 : UInt8) ∉ serializeEntries es
  | [], _ => by simp [serializeEntries]
  | e :: es, h => by
      have he := zero_not_mem_serializeEntry e h.1
      have hes := zero_not_mem_serializeEntries es h.2
      have hcomma : (0 : UInt8) ∉ ascii ", " := by decide
      simp [serializeEntries, he, hes, hcomma]

theorem zero_not_mem_serializeValues : ∀ vs : List JsonValue, PlainValues vs →
    (0 : UInt8) ∉ serializeValues vs
  | [], _ => by simp [serializeValues]
  | v :: vs, h => by
      have hv := zero_not_mem_jsonSerialize v h.1
      have hvs := zero_not_mem_serializeValues vs h.2
      have hcomma : (0 : UInt8) ∉ ascii ", " := by decide
      simp [serializeValues, hv, hvs, hcomma]

end

/-! ## Beginnings of a text -/

def JsonValue.isNumber : JsonValue → Bool
  | .integer _ | .double _ => true
  | _ => false

theorem Number.isNumber_close (n : Number) : n.close.isNumber = true := by
  unfold Number.close
  split <;> rfl

theorem Number.step_ends {n : Number} {b : UInt8} {v : JsonValue} (h : n.step b = .ends v) :
    v.isNumber = true := by
  have hfinish : n.finish b = .ends v := by
    unfold Number.step at h
    split at h
    · unfold Number.digit at h
      split_ifs at h
    · split_ifs at h
      exact h
  unfold Number.finish at hfinish
  split_ifs at hfinish <;> cases hfinish <;> exact n.isNumber_close

/-- After the root value, the parse can only end with it. -/
theorem Parser.run_done {st : List Frame} {v v' : JsonValue} {rest : Bytes}
    (h : Parser.run ⟨st, .done v⟩ rest = some v') : v' = v := by
  induction rest with
  | nil =>
    cases h
    rfl
  | cons b rest ih =>
    simp only [Parser.run, feed, feedPlain, atEnd] at h
    split_ifs at h
    · cases h
      rfl
    · exact ih h

/-- A root value that begins as a number is a number. -/
theorem Parser.run_number {n : Number} {v : JsonValue} {rest : Bytes}
    (h : Parser.run ⟨[], .number n⟩ rest = some v) : v.isNumber = true := by
  have hend : ∀ {n : Number} {v : JsonValue}, Parser.atEnd ⟨[], .number n⟩ = some v →
      v.isNumber = true := by
    intro n v h
    simp only [atEnd] at h
    split at h
    · rename_i w hw
      cases h
      exact Number.step_ends hw
    · cases h
  induction rest generalizing n with
  | nil => exact hend h
  | cons b rest ih =>
    simp only [Parser.run, feed] at h
    split at h
    · exact hend h
    · cases hs : n.step b with
      | more n' =>
        simp only [hs] at h
        exact ih h
      | ends w =>
        simp only [hs, next, feedPlain] at h
        split_ifs at h
        rw [Parser.run_done h]
        exact Number.step_ends hs
      | fails => simp [hs] at h

/-- A text and one of its beginnings, both parsed. -/
theorem Parser.run_append {p : Parser} {a b : Bytes} {v v' : JsonValue} (ha : p.run a = some v)
    (hab : p.run (a ++ b) = some v') : v' = v ∨ v.isNumber = true ∧ v'.isNumber = true := by
  induction a generalizing p with
  | nil =>
    obtain ⟨st, pc⟩ := p
    cases pc with
    | done w =>
      cases ha
      exact Or.inl (Parser.run_done hab)
    | number n =>
      cases st with
      | nil => exact Or.inr ⟨Parser.run_number ha, Parser.run_number hab⟩
      | cons f st => cases ha
    | _ => cases ha
  | cons c a ih =>
    simp only [List.cons_append, Parser.run] at ha hab
    split_ifs at ha hab
    · exact Or.inl (Option.some.inj (hab.symm.trans ha))
    · cases hf : p.feed c with
      | some q =>
        simp only [hf] at ha hab
        exact ih ha hab
      | none => simp [hf] at ha

/-- A byte order mark that is cut is no beginning of a value. -/
theorem skipBom_append {a b : Bytes} {v : JsonValue} (ha : jsonParse a = some v) :
    skipBom (a ++ b) = skipBom a ++ b := by
  have hkeep : ∀ {x : UInt8} {rest : Bytes}, x ≠ 0xEF → skipBom (x :: rest) = x :: rest := by
    intro x rest hx
    unfold skipBom
    split
    · rename_i h
      exact absurd (List.cons.inj h).1 hx
    · rfl
  have hcut : ∀ rest : Bytes, Parser.run ⟨[], .seek false false⟩ (0xEF :: rest) = none :=
    fun rest => rfl
  cases a with
  | nil => cases ha
  | cons x rest =>
    by_cases hx : x = 0xEF
    · subst hx
      rw [jsonParse] at ha
      unfold skipBom at ha
      split at ha
      · rename_i h
        rw [h]
        rfl
      · rw [hcut] at ha
        cases ha
    · rw [List.cons_append, hkeep hx, hkeep hx, List.cons_append]

theorem jsonParse_append {a b : Bytes} {v v' : JsonValue} (ha : jsonParse a = some v)
    (hab : jsonParse (a ++ b) = some v') : v' = v ∨ v.isNumber = true ∧ v'.isNumber = true := by
  rw [jsonParse, skipBom_append ha] at hab
  exact Parser.run_append ha hab

end Pyoneer.Shared
