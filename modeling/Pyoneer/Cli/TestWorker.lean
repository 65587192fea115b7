/-
Pyoneer.Cli.TestWorker — the client of `tests/test_worker.py`, which
writes its requests with `json.dumps`.

`json.dumps` escapes every character outside of ASCII: one `\u` escape
up to U+FFFF, a surrogate pair above. The parser joins the pair with
`|`, so that a character of an even plane arrives as the one below it in
the plane before (`received`). `jsonParse_jsonDumps` says what the
server has of a value, and that it is the value that was sent exactly if
no string in it has such a character.

Floats are left out, and strings that are no text (a `str` with half a
pair in it).
-/
import Pyoneer.Cli.WorkerTheorems
import Pyoneer.Shared.JsonRoundTrip
import Pyoneer.Shared.JsonUtf8

namespace Pyoneer.Cli

open Pyoneer.Lib Pyoneer.Shared Pyoneer.Shared.Parser

/-- What `json.dumps` takes. -/
inductive PyValue where
  | dict (items : List (List Char × PyValue))
  | list (items : List PyValue)
  | int (n : Int)
  | str (s : List Char)
  | bool (b : Bool)
  | none

/-! ## `json.dumps` -/

/-- The escape of a character above U+FFFF. -/
def pairEscape (u : Nat) : Bytes :=
  let v := u - 0x10000
  unicodeEscape (0xD800 ||| v >>> 10 &&& 0x3FF) ++ unicodeEscape (0xDC00 ||| v &&& 0x3FF)

/-- One character of a string, with `ensure_ascii`. -/
def dumpsChar (c : Char) : Bytes :=
  let u := c.toNat
  if u = 34 ∨ u = 92 then [92, u.toUInt8]
  else if u = 10 then [92, 110]
  else if u = 13 then [92, 114]
  else if u = 9 then [92, 116]
  else if u = 12 then [92, 102]
  else if u = 8 then [92, 98]
  else if 0x20 ≤ u ∧ u ≤ 0x7E then [u.toUInt8]
  else if u < 0x10000 then unicodeEscape u
  else pairEscape u

def dumpsString (s : List Char) : Bytes := 34 :: s.flatMap dumpsChar ++ [34]

mutual

/-- `json.dumps`. -/
def jsonDumps : PyValue → Bytes
  | .dict [] => ascii "\x7b\x7d"
  | .dict (item :: items) => 123 :: dumpsItem item ++ dumpsItems items ++ [125]
  | .list [] => ascii "[]"
  | .list (v :: vs) => 91 :: jsonDumps v ++ dumpsValues vs ++ [93]
  | .int n => serializeInteger n
  | .str s => dumpsString s
  | .bool true => ascii "true"
  | .bool false => ascii "false"
  | .none => ascii "null"

def dumpsItem : List Char × PyValue → Bytes
  | (name, v) => dumpsString name ++ [58, 32] ++ jsonDumps v

/-- The items after the first. -/
def dumpsItems : List (List Char × PyValue) → Bytes
  | [] => []
  | item :: items => [44, 32] ++ dumpsItem item ++ dumpsItems items

/-- The values after the first. -/
def dumpsValues : List PyValue → Bytes
  | [] => []
  | v :: vs => [44, 32] ++ jsonDumps v ++ dumpsValues vs

end

/-! ## What arrives -/

/-- The character comes out as another one: it is in plane 2, 4, … 16. -/
def Shifted (c : Char) : Prop := 0x10000 ≤ c.toNat ∧ (c.toNat - 0x10000) / 0x10000 % 2 = 1

instance (c : Char) : Decidable (Shifted c) := inferInstanceAs (Decidable (_ ∧ _))

/-- The character that the parser makes of the escape of `c`. -/
def received (c : Char) : Char := if Shifted c then Char.ofNat (c.toNat - 0x10000) else c

mutual

/-- The value as the server has it; `f` is what becomes of a
character. -/
def serverValue (f : Char → Char) : PyValue → JsonValue
  | .dict items => .object (serverItems f items)
  | .list vs => .array (serverValues f vs)
  | .int n => rereadInteger n
  | .str s => .string (utf8 (s.map f))
  | .bool b => .boolean b
  | .none => .null

def serverItem (f : Char → Char) : List Char × PyValue → Bytes × JsonValue
  | (name, v) => (utf8 (name.map f), serverValue f v)

def serverItems (f : Char → Char) : List (List Char × PyValue) → List (Bytes × JsonValue)
  | [] => []
  | item :: items => serverItem f item :: serverItems f items

def serverValues (f : Char → Char) : List PyValue → List JsonValue
  | [] => []
  | v :: vs => serverValue f v :: serverValues f vs

end

mutual

/-- No character of a string or a key is `Shifted`. -/
def PyValue.Steady : PyValue → Prop
  | .dict items => SteadyItems items
  | .list vs => SteadyValues vs
  | .str s => ∀ c ∈ s, ¬ Shifted c
  | .int _ | .bool _ | .none => True

def SteadyItem : List Char × PyValue → Prop
  | (name, v) => (∀ c ∈ name, ¬ Shifted c) ∧ v.Steady

def SteadyItems : List (List Char × PyValue) → Prop
  | [] => True
  | item :: items => SteadyItem item ∧ SteadyItems items

def SteadyValues : List PyValue → Prop
  | [] => True
  | v :: vs => v.Steady ∧ SteadyValues vs

end

/-! ## Characters -/

theorem hex4_unicodeEscape {u : Nat} (hu : u < 65536) :
    Grammar.hex4 (hexDigit (u / 4096 % 16)) (hexDigit (u / 256 % 16)) (hexDigit (u / 16 % 16))
      (hexDigit (u % 16)) = some u := by
  have hdigit : ∀ n, hexValue (hexDigit (n % 16)) = some (n % 16) := fun n =>
    (hexDigit_spec (n % 16) (Nat.mod_lt _ (by decide))).2
  rw [Grammar.hex4, hdigit, hdigit, hdigit, hdigit]
  refine congrArg some ?_
  omega

theorem feeds_unicodeEscape {p : Parser} {st : List Frame} {name : Bool} {acc : Bytes}
    {first : Option Nat} {u : Nat} (hopen : Feeds p [92, 117] ⟨st, .hex name acc 0 3 first⟩)
    (hu : u < 65536) : Feeds p (unicodeEscape u) (afterHex st name acc u first) :=
  hopen.append (run_hex4 (hex4_unicodeEscape hu))

/-- The first escape of a pair. -/
theorem feeds_firstHalf {u : Nat} (hu : u < 65536) (hs : isSurrogate u = true)
    (st : List Frame) (name : Bool) (acc : Bytes) :
    Feeds ⟨st, .string name acc⟩ (unicodeEscape u) ⟨st, .pair name acc u false⟩ := by
  have hopen : Feeds ⟨st, .string name acc⟩ [92, 117] ⟨st, .hex name acc 0 3 none⟩ :=
    .cons (by decide) rfl (.byte (by decide) rfl)
  have hfeeds := feeds_unicodeEscape hopen hu
  rwa [afterHex, if_pos hs] at hfeeds

/-- The second escape of a pair. -/
theorem feeds_secondHalf {u : Nat} (hu : u < 65536) (v : Nat) (st : List Frame) (name : Bool)
    (acc : Bytes) : Feeds ⟨st, .pair name acc v false⟩ (unicodeEscape u)
      ⟨st, .string name (acc ++ encodeUchar (pairUchar v u))⟩ := by
  have hopen : Feeds ⟨st, .pair name acc v false⟩ [92, 117] ⟨st, .hex name acc 0 3 (some v)⟩ :=
    .cons (by decide) rfl (.byte (by decide) rfl)
  exact feeds_unicodeEscape hopen hu

/-- The halves of the pair. -/
theorem halves_eq {v : Nat} (hv : v < 0x100000) :
    0xD800 ||| v >>> 10 &&& 0x3FF = 0xD800 + v / 1024 ∧
      0xDC00 ||| v &&& 0x3FF = 0xDC00 + v % 1024 := by
  have hlow : ∀ x : Nat, x &&& 0x3FF = x % 1024 := fun x => Nat.and_two_pow_sub_one_eq_mod x 10
  have hfirst := @or_eq_add 10 54 (v >>> 10 % 1024) (Nat.mod_lt _ (by decide))
  have hsecond := @or_eq_add 10 55 (v % 1024) (Nat.mod_lt _ (by decide))
  have h54 : (2 : Nat) ^ 10 * 54 = 0xD800 := rfl
  have h55 : (2 : Nat) ^ 10 * 55 = 0xDC00 := rfl
  rw [hlow, hlow]
  rw [h54, Nat.shiftRight_eq_div_pow] at hfirst
  rw [h55] at hsecond
  rw [Nat.shiftRight_eq_div_pow, hfirst, hsecond]
  omega

theorem spells_pairEscape {c : Char} (hc : 0x10000 ≤ c.toNat) :
    Spells (pairEscape c.toNat) (String.utf8EncodeChar (received c)) := by
  have hlt := char_toNat_lt c
  obtain ⟨hfirst, hsecond⟩ := halves_eq (v := c.toNat - 0x10000) (by omega)
  have hhalf : ∀ r < 1024, isSurrogate (0xD800 + r) = true := by decide +kernel
  have hpair : pairUchar (0xD800 + (c.toNat - 0x10000) / 1024)
      (0xDC00 + (c.toNat - 0x10000) % 1024) = (received c).toNat := by
    rw [pairUchar_eq, received]
    by_cases hs : Shifted c
    · have hvalid : (c.toNat - 0x10000).isValidChar := .inr (by unfold Shifted at hs; omega)
      rw [if_pos hs, char_toNat_ofNat hvalid]
      unfold Shifted at hs
      rw [if_pos (by omega)]
      omega
    · rw [if_neg hs]
      unfold Shifted at hs
      rw [if_neg (by omega)]
      omega
  intro st name acc
  rw [← encodeUchar_eq, ← hpair, pairEscape]
  simp only [hfirst, hsecond]
  exact (feeds_firstHalf (by omega) (hhalf _ (by omega)) st name acc).append
    (feeds_secondHalf (by omega) _ st name acc)

theorem received_of_lt {c : Char} (hc : c.toNat < 0x10000) : received c = c :=
  if_neg fun h => by unfold Shifted at h; omega

/-- A character is no half of a pair. -/
theorem isSurrogate_char {c : Char} (hc : c.toNat < 0x10000) : isSurrogate c.toNat = false := by
  rw [isSurrogate, beq_eq_false_iff_ne]
  intro heq
  have hshift := Nat.shiftRight_and_distrib (i := 11) (a := c.toNat) (b := 0xF800)
  have hmask : 0xF800 >>> 11 = 2 ^ 5 - 1 := rfl
  have hhalf : 0xD800 >>> 11 = 27 := rfl
  rw [heq, hmask, hhalf, Nat.and_two_pow_sub_one_eq_mod, Nat.shiftRight_eq_div_pow] at hshift
  have hvalid : c.toNat < 0xD800 ∨ 0xDFFF < c.toNat ∧ c.toNat < 0x110000 := c.valid
  omega

theorem spells_dumpsChar (c : Char) :
    Spells (dumpsChar c) (String.utf8EncodeChar (received c)) := by
  have hlow : ∀ u, u ≤ 0x7F → c.toNat = u →
      String.utf8EncodeChar (received c) = [u.toUInt8] := by
    intro u hu hc
    rw [received_of_lt (by omega), utf8EncodeChar_low (by omega), hc]
  simp only [dumpsChar]
  split
  · rename_i h
    rcases h with h | h <;> rw [hlow _ (by decide) h, h] <;> exact .escape (by decide) (by decide)
  rename_i hplain
  -- the letters of the short escapes
  split
  · rename_i h
    rw [hlow _ (by decide) h]
    exact Spells.escape (b := 110) (by decide) (by decide)
  split
  · rename_i h
    rw [hlow _ (by decide) h]
    exact Spells.escape (b := 114) (by decide) (by decide)
  split
  · rename_i h
    rw [hlow _ (by decide) h]
    exact Spells.escape (b := 116) (by decide) (by decide)
  split
  · rename_i h
    rw [hlow _ (by decide) h]
    exact Spells.escape (b := 102) (by decide) (by decide)
  split
  · rename_i h
    rw [hlow _ (by decide) h]
    exact Spells.escape (b := 98) (by decide) (by decide)
  split
  · rename_i h
    rw [hlow _ (by omega) rfl]
    refine spells_self fun b hb => ?_
    rw [List.mem_singleton] at hb
    subst hb
    refine ⟨?_, ?_, ?_⟩ <;> intro heq <;> have := congrArg UInt8.toNat heq <;>
      simp at this <;> omega
  split
  · rename_i h
    rw [received_of_lt h, ← encodeUchar_eq]
    exact spells_unicodeEscape h (isSurrogate_char h)
  · rename_i h
    exact spells_pairEscape (by omega)

theorem spells_dumpsString (s : List Char) :
    Spells (s.flatMap dumpsChar) (utf8 (s.map received)) := by
  rw [utf8, List.flatMap_map]
  exact Spells.flatMap s fun c _ => spells_dumpsChar c

/-! ## Values -/

theorem delimited_dumpsItems (items : List (List Char × PyValue)) (rest : Bytes) :
    Delimited (dumpsItems items ++ (125 :: rest)) := by
  cases items with
  | nil => exact .cons (by decide)
  | cons item items => exact .cons (by decide)

theorem delimited_dumpsValues (vs : List PyValue) (rest : Bytes) :
    Delimited (dumpsValues vs ++ (93 :: rest)) := by
  cases vs with
  | nil => exact .cons (by decide)
  | cons v vs => exact .cons (by decide)

mutual

/-- What the parser makes of a value that Python has written. -/
theorem reads_jsonDumps : ∀ v : PyValue, Reads (jsonDumps v) (serverValue received v)
  | .dict [] => reads_emptyObject
  | .dict (item :: items) => by
      intro st rest _
      have htext : jsonDumps (.dict (item :: items)) ++ rest =
          [123] ++ (dumpsItem item ++ (dumpsItems items ++ (125 :: rest))) := by
        simp [jsonDumps]
      rw [htext, feeds_openObject, run_dumpsItem item st [] [] _ (delimited_dumpsItems items rest),
        run_dumpsItems items]
      rfl
  | .list [] => reads_emptyArray
  | .list (v :: vs) => by
      intro st rest _
      have htext : jsonDumps (.list (v :: vs)) ++ rest =
          [91] ++ (jsonDumps v ++ (dumpsValues vs ++ (93 :: rest))) := by
        simp [jsonDumps]
      rw [htext, feeds_openArray, reads_jsonDumps v _ _ (delimited_dumpsValues vs rest), next,
        List.nil_append, run_dumpsValues vs]
      rfl
  | .int n => reads_serializeInteger n
  | .str s => (spells_dumpsString s).reads
  | .bool true => reads_true
  | .bool false => reads_false
  | .none => reads_null

theorem run_dumpsItem : ∀ (item : List Char × PyValue) (st : List Frame)
    (acc : List (Bytes × JsonValue)) (old rest : Bytes), Delimited rest →
      Parser.run ⟨.object acc old :: st, .object false⟩ (dumpsItem item ++ rest)
        = Parser.run ⟨.object (acc ++ [serverItem received item])
            (serverItem received item).1 :: st, .object true⟩ rest
  | (name, v), st, acc, old, rest, hrest => by
      have hname := (spells_dumpsString name).name st acc old
      have hcolon : Feeds ⟨.object acc (utf8 (name.map received)) :: st, .seek false true⟩ [58, 32]
          ⟨.object acc (utf8 (name.map received)) :: st, .seek false false⟩ :=
        (feeds_colon _).append (feeds_space_seek _ _ _)
      have htext : dumpsItem (name, v) ++ rest
          = (34 :: name.flatMap dumpsChar ++ [34]) ++ ([58, 32] ++ (jsonDumps v ++ rest)) := by
        simp [dumpsItem, dumpsString]
      rw [htext, hname, hcolon, reads_jsonDumps v _ _ hrest]
      rfl

theorem run_dumpsItems : ∀ (items : List (List Char × PyValue)) (st : List Frame)
    (acc : List (Bytes × JsonValue)) (old rest : Bytes),
      Parser.run ⟨.object acc old :: st, .object true⟩ (dumpsItems items ++ (125 :: rest))
        = (next (.object (acc ++ serverItems received items)) st).run rest
  | [], st, acc, old, rest => by
      rw [dumpsItems, List.nil_append, serverItems, List.append_nil]
      exact feeds_closeObject st acc old true rest
  | item :: items, st, acc, old, rest => by
      have hcomma : Feeds ⟨.object acc old :: st, .object true⟩ [44, 32]
          ⟨.object acc old :: st, .object false⟩ :=
        (feeds_comma_object _).append (feeds_space_object _ _)
      simp only [dumpsItems, List.append_assoc]
      rw [hcomma, run_dumpsItem item _ _ _ _ (delimited_dumpsItems items rest),
        run_dumpsItems items, serverItems, List.append_assoc, List.singleton_append]

theorem run_dumpsValues : ∀ (vs : List PyValue) (st : List Frame) (acc : List JsonValue)
    (rest : Bytes),
      Parser.run ⟨.array acc :: st, .seek true false⟩ (dumpsValues vs ++ (93 :: rest))
        = (next (.array (acc ++ serverValues received vs)) st).run rest
  | [], st, acc, rest => by
      rw [dumpsValues, List.nil_append, serverValues, List.append_nil]
      exact feeds_closeArray st acc true rest
  | v :: vs, st, acc, rest => by
      have hcomma : Feeds ⟨.array acc :: st, .seek true false⟩ [44, 32]
          ⟨.array acc :: st, .seek false false⟩ :=
        (feeds_comma_seek _).append (feeds_space_seek _ _ _)
      simp only [dumpsValues, List.append_assoc]
      rw [hcomma, reads_jsonDumps v _ _ (delimited_dumpsValues vs rest), next,
        run_dumpsValues vs, serverValues, List.append_assoc, List.singleton_append]

end

/-! ## What is lost -/

theorem received_eq_self {c : Char} : received c = c ↔ ¬ Shifted c := by
  refine ⟨fun h hs => ?_, fun h => if_neg h⟩
  have hvalid : (c.toNat - 0x10000).isValidChar := by
    have hlt := char_toNat_lt c
    refine .inr ?_
    unfold Shifted at hs
    omega
  have hnat := congrArg Char.toNat h
  rw [received, if_pos hs, char_toNat_ofNat hvalid] at hnat
  unfold Shifted at hs
  omega

theorem utf8_received {s : List Char} : utf8 (s.map received) = utf8 s ↔ ∀ c ∈ s, ¬ Shifted c := by
  have hmap : s.map received = s ↔ ∀ c ∈ s, received c = c := by
    conv_lhs => rw [← List.map_id' s, List.map_map]
    exact List.map_inj_left
  simp only [← received_eq_self, ← hmap]
  exact ⟨fun h => encode_text_injective h, fun h => by rw [h]⟩

mutual

/-- The value arrives as it was sent exactly if it is steady. -/
theorem serverValue_received : ∀ v : PyValue, serverValue received v = serverValue id v ↔ v.Steady
  | .dict items => by
      rw [serverValue, serverValue, JsonValue.object.injEq, serverItems_received items,
        PyValue.Steady]
  | .list vs => by
      rw [serverValue, serverValue, JsonValue.array.injEq, serverValues_received vs,
        PyValue.Steady]
  | .str s => by
      rw [serverValue, serverValue, JsonValue.string.injEq, List.map_id, utf8_received,
        PyValue.Steady]
  | .int _ => iff_of_true rfl trivial
  | .bool _ => iff_of_true rfl trivial
  | .none => iff_of_true rfl trivial

theorem serverItem_received : ∀ item : List Char × PyValue,
    serverItem received item = serverItem id item ↔ SteadyItem item
  | (name, v) => by
      rw [serverItem, serverItem, Prod.mk.injEq, List.map_id, utf8_received,
        serverValue_received v, SteadyItem]

theorem serverItems_received : ∀ items : List (List Char × PyValue),
    serverItems received items = serverItems id items ↔ SteadyItems items
  | [] => iff_of_true rfl trivial
  | item :: items => by
      rw [serverItems, serverItems, List.cons.injEq, serverItem_received item,
        serverItems_received items, SteadyItems]

theorem serverValues_received : ∀ vs : List PyValue,
    serverValues received vs = serverValues id vs ↔ SteadyValues vs
  | [] => iff_of_true rfl trivial
  | v :: vs => by
      rw [serverValues, serverValues, List.cons.injEq, serverValue_received v,
        serverValues_received vs, SteadyValues]

end

theorem skipBom_jsonDumps (v : PyValue) : skipBom (jsonDumps v) = jsonDumps v := by
  cases v with
  | dict items =>
    cases items with
    | nil => rfl
    | cons item items => exact skipBom_cons (by decide) _
  | list vs =>
    cases vs with
    | nil => rfl
    | cons v vs => exact skipBom_cons (by decide) _
  | int n => exact skipBom_serializeInteger n
  | str s => exact skipBom_cons (by decide) _
  | bool b => cases b <;> rfl
  | none => rfl

/-- What the server has of a value that the Python client sends, and when
it is that value. The text is taken to be within the limits of the
parser (`jsonParseLimited_eq`); an integer that `json_int_t` does not
hold is a double there, which is its literal. -/
theorem jsonParse_jsonDumps (v : PyValue) :
    jsonParse (jsonDumps v) = some (serverValue received v) ∧
      (jsonParse (jsonDumps v) = some (serverValue id v) ↔ v.Steady) := by
  have hparse := (reads_jsonDumps v).parse (skipBom_jsonDumps v)
  refine ⟨hparse, ?_⟩
  rw [hparse, Option.some.injEq, serverValue_received]

end Pyoneer.Cli
