/-
Pyoneer.Shared.JsonSecondPass — the second pass of `json_parse_ex` fills
exactly the room that the first measured.

The first pass has accepted the text, so the grammar of `JsonGrammar`
derives it; the second pass is followed along the derivation. Where a
value is read whose layout is next in the list, the cells of the value
are added (`valueDone`) and `top` is left on it: no write is outside of
its room and the list does not run out, for either would be `none`. At
the end the cells hold the value (`jsonParseEx_holds`), and no room is
left.
-/
import Pyoneer.Shared.JsonFirstPass
import Pyoneer.Shared.JsonGrammar

namespace Pyoneer.Shared

open Grammar

/-! ## The cells of a value -/

/-- The addresses of the elements of an array, from the first. -/
def valueCells (k : Nat) : List JsonValue → List Nat
  | [] => []
  | v :: vs => k :: valueCells (k + cellCount v) vs

def entryCells (k : Nat) : List (Bytes × JsonValue) → List (Bytes × Nat)
  | [] => []
  | e :: es => (e.1, k) :: entryCells (k + cellCountEntry e) es

mutual

/-- The cells of a value whose root is the `k`th, after the second
pass. -/
def fill (parent : Option Nat) (k : Nat) : JsonValue → List BuiltCell
  | .object es =>
    ⟨parent, .object es.length (namesSize es) (namesSize es) [] (entryCells (k + 1) es)⟩ ::
      fillEntries k (k + 1) es
  | .array vs => ⟨parent, .array vs.length (valueCells (k + 1) vs)⟩ :: fillValues k (k + 1) vs
  | .integer n => [⟨parent, .integer n⟩]
  | .double text => [⟨parent, .double text⟩]
  | .string s => [⟨parent, .string s.length s⟩]
  | .boolean b => [⟨parent, .boolean b⟩]
  | .null => [⟨parent, .null⟩]

def fillEntry (parent k : Nat) : Bytes × JsonValue → List BuiltCell
  | (_, v) => fill (some parent) k v

def fillEntries (parent k : Nat) : List (Bytes × JsonValue) → List BuiltCell
  | [] => []
  | e :: es => fillEntry parent k e ++ fillEntries parent (k + cellCountEntry e) es

def fillValues (parent k : Nat) : List JsonValue → List BuiltCell
  | [] => []
  | v :: vs => fill (some parent) k v ++ fillValues parent (k + cellCount v) vs

end

mutual

theorem length_fill (parent : Option Nat) (k : Nat) :
    ∀ v : JsonValue, (fill parent k v).length = cellCount v
  | .object es => by
      rw [fill, List.length_cons, length_fillEntries, cellCount]
  | .array vs => by
      rw [fill, List.length_cons, length_fillValues, cellCount]
  | .integer _ => rfl
  | .double _ => rfl
  | .string _ => rfl
  | .boolean _ => rfl
  | .null => rfl

theorem length_fillEntry (parent k : Nat) :
    ∀ e : Bytes × JsonValue, (fillEntry parent k e).length = cellCountEntry e
  | (_, v) => length_fill (some parent) k v

theorem length_fillEntries (parent k : Nat) :
    ∀ es : List (Bytes × JsonValue), (fillEntries parent k es).length = cellCountEntries es
  | [] => rfl
  | e :: es => by
      rw [fillEntries, List.length_append, length_fillEntry, length_fillEntries,
        cellCountEntries]

theorem length_fillValues (parent k : Nat) :
    ∀ vs : List JsonValue, (fillValues parent k vs).length = cellCountValues vs
  | [] => rfl
  | v :: vs => by
      rw [fillValues, List.length_append, length_fill, length_fillValues, cellCountValues]

end

/-- The cells begin with the root. -/
theorem fill_cons (parent : Option Nat) (k : Nat) (v : JsonValue) :
    ∃ payload cells, fill parent k v = ⟨parent, payload⟩ :: cells := by
  cases v <;> exact ⟨_, _, rfl⟩

/-! ## The operations -/

namespace SecondMem

/-- The cells that are next in the list. -/
def Awaits (mem : SecondMem) (cells : List MeasuredCell) : Prop :=
  cells <+: mem.measured.drop mem.built.length

/-- The memory with the cells of a value more. -/
def valueDone (mem : SecondMem) (v : JsonValue) : SecondMem :=
  ⟨mem.measured, mem.built ++ fill mem.top mem.built.length v, some mem.built.length⟩

/-- The memory where the array at `top` is read: the cells before it, its
own, and those after it. -/
def inArray (measured : List MeasuredCell) (l : List BuiltCell) (parent : Option Nat) (room : Nat)
    (elements : List Nat) (r : List BuiltCell) : SecondMem :=
  ⟨measured, l ++ ⟨parent, .array room elements⟩ :: r, some l.length⟩

/-- The memory where the object at `top` is read. -/
def inObject (measured : List MeasuredCell) (l : List BuiltCell) (parent : Option Nat)
    (room nameRoom used : Nat) (name : Bytes) (entries : List (Bytes × Nat))
    (r : List BuiltCell) : SecondMem :=
  ⟨measured, l ++ ⟨parent, .object room nameRoom used name entries⟩ :: r, some l.length⟩

theorem built_at {α : Type} (l r : List α) (a : α) : (l ++ a :: r)[l.length]? = some a :=
  Parser.getElem_append_cons ..

theorem Awaits.head {mem : SecondMem} {c : MeasuredCell} {cells : List MeasuredCell}
    (h : mem.Awaits (c :: cells)) : mem.measured[mem.built.length]? = some c := by
  obtain ⟨later, h⟩ := h
  rw [← List.head?_drop, ← h]
  rfl

/-- After some cells have been taken, the ones behind them are next. -/
theorem Awaits.drop {mem mem' : SecondMem} {cells cells' : List MeasuredCell}
    (h : mem.Awaits (cells ++ cells')) (hm : mem'.measured = mem.measured)
    (hb : mem'.built.length = mem.built.length + cells.length) : mem'.Awaits cells' := by
  obtain ⟨later, h⟩ := h
  refine ⟨later, ?_⟩
  rw [hm, hb, ← List.drop_drop, ← h, List.append_assoc, List.drop_left]

theorem Awaits.left {mem : SecondMem} {cells cells' : List MeasuredCell}
    (h : mem.Awaits (cells ++ cells')) : mem.Awaits cells :=
  (List.prefix_append ..).trans h

theorem set_append_cons {α : Type} (l r : List α) (a b : α) :
    (l ++ a :: r).set l.length b = l ++ b :: r := by
  rw [List.set_append_right _ _ le_rfl, Nat.sub_self, List.set_cons_zero]

theorem update_at (measured : List MeasuredCell) (l r : List BuiltCell) (c : BuiltCell)
    (f : Built → Option Built) :
    SecondMem.update ⟨measured, l ++ c :: r, some l.length⟩ f =
      (f c.payload).map fun payload =>
        ⟨measured, l ++ { c with payload := payload } :: r, some l.length⟩ := by
  simp only [update, Option.bind_some, built_at, set_append_cons]

/-- Below the root of a complete value is the cell that was `top`. -/
theorem valueDone_parent (mem : SecondMem) (v : JsonValue) : (mem.valueDone v).parent = mem.top := by
  obtain ⟨payload, cells, hfill⟩ := fill_cons mem.top mem.built.length v
  simp only [parent, cell, valueDone, hfill, Option.bind_some, built_at]

theorem parentType_of {mem : SecondMem} {l r : List BuiltCell} {c : BuiltCell}
    (hbuilt : mem.built = l ++ c :: r) (h : mem.parent = some l.length) :
    secondPass.parentType mem = some c.payload.type := by
  simp only [secondPass, h, Option.bind_some, hbuilt, built_at, Option.map_some]

theorem next_root {mem : SecondMem} (h : mem.parent = none) :
    Pass.next secondPass mem = some ⟨mem, .done⟩ := by
  have htype : secondPass.parentType mem = none := by
    simp only [secondPass, h]
    rfl
  simp only [Pass.next, htype]

/-- `flag_next` in an array with room. -/
theorem next_inArray {measured : List MeasuredCell} {l r : List BuiltCell} {parent : Option Nat}
    {room k : Nat} {elements : List Nat}
    (h : SecondMem.parent ⟨measured, l ++ ⟨parent, .array room elements⟩ :: r, some k⟩ =
      some l.length) (hroom : elements.length < room) :
    Pass.next secondPass ⟨measured, l ++ ⟨parent, .array room elements⟩ :: r, some k⟩ =
      some ⟨inArray measured l parent room (elements ++ [k]) r, .seek true false⟩ := by
  have htype := parentType_of rfl h
  have hattach : secondPass.attach
      ⟨measured, l ++ ⟨parent, .array room elements⟩ :: r, some k⟩ =
      some (inArray measured l parent room (elements ++ [k]) r) := by
    simp only [secondPass, Option.bind_some, h, update_at, take, if_pos hroom, Option.map_some,
      inArray]
  simp only [Pass.next, htype, Built.type, hattach, Option.map_some]

/-- `flag_next` in an object with room. -/
theorem next_inObject {measured : List MeasuredCell} {l r : List BuiltCell} {parent : Option Nat}
    {room nameRoom used k : Nat} {name : Bytes} {entries : List (Bytes × Nat)}
    (h : SecondMem.parent
      ⟨measured, l ++ ⟨parent, .object room nameRoom used name entries⟩ :: r, some k⟩ =
      some l.length) (hroom : entries.length < room) :
    Pass.next secondPass
      ⟨measured, l ++ ⟨parent, .object room nameRoom used name entries⟩ :: r, some k⟩ =
      some ⟨inObject measured l parent room nameRoom used [] (entries ++ [(name, k)]) r,
        .object true⟩ := by
  have htype := parentType_of rfl h
  have hattach : secondPass.attach
      ⟨measured, l ++ ⟨parent, .object room nameRoom used name entries⟩ :: r, some k⟩ =
      some (inObject measured l parent room nameRoom used [] (entries ++ [(name, k)]) r) := by
    simp only [secondPass, Option.bind_some, h, update_at, take, if_pos hroom, Option.map_some,
      inObject]
  simp only [Pass.next, htype, Built.type, hattach, Option.map_some]

/-- `new_value` takes the next value of the list. -/
theorem newValue_awaits {mem : SecondMem} {c : MeasuredCell} {cells : List MeasuredCell}
    (h : mem.Awaits (c :: cells)) (v : JsonValue) :
    secondPass.newValue v mem =
      some ⟨mem.measured, mem.built ++ [⟨c.parent, c.payload.allocate⟩],
        some mem.built.length⟩ := by
  simp only [secondPass, h.head, Option.map_some]

end SecondMem

/-! ## The loop -/

namespace SecondPass

open SecondMem

/-- The second pass, from a state. -/
abbrev run (mem : SecondMem) (pc : PassPc) (text : Bytes) : Option SecondMem :=
  Pass.run secondPass ⟨mem, pc⟩ text

theorem run_feed {mem mem' : SecondMem} {pc pc' : PassPc} {b : UInt8} (h0 : b ≠ 0)
    (h : Pass.feed secondPass ⟨mem, pc⟩ b = some ⟨mem', pc'⟩) (text : Bytes) :
    run mem pc (b :: text) = run mem' pc' text := by
  rw [run, Pass.run, if_neg h0, h]

/-- A byte after which the loop goes on with some state, if there is
one. -/
theorem run_bind {mem : SecondMem} {pc : PassPc} {b : UInt8} {p : Option (Pass SecondMem)}
    (h0 : b ≠ 0) (h : Pass.feed secondPass ⟨mem, pc⟩ b = p) (text : Bytes) :
    run mem pc (b :: text) = p.bind fun p => run p.mem p.pc text := by
  rw [run, Pass.run, if_neg h0, h]
  cases p <;> rfl

theorem run_ws_seek {mem : SecondMem} {c k : Bool} {text rest : Bytes} (h : Ws text rest) :
    run mem (.seek c k) text = run mem (.seek c k) rest := by
  induction h with
  | nil => rfl
  | cons hb _ ih =>
    rw [← ih]
    exact run_feed (Parser.ne_zero_of_isWhitespace hb)
      (by simp only [Pass.feed, Pass.feedPlain, Pass.feedSeek, hb, if_true]) _

theorem run_ws_object {mem : SecondMem} {c : Bool} {text rest : Bytes} (h : Ws text rest) :
    run mem (.object c) text = run mem (.object c) rest := by
  induction h with
  | nil => rfl
  | cons hb _ ih =>
    rw [← ih]
    exact run_feed (Parser.ne_zero_of_isWhitespace hb)
      (by simp only [Pass.feed, Pass.feedPlain, Pass.feedObject, hb, if_true]) _

/-! ### Strings -/

theorem run_digit {mem : SecondMem} {length u k : Nat} {first : Option Nat} {a : UInt8} {d : Nat}
    (ha : hexValue a = some d) (text : Bytes) :
    run mem (.hex length u (k + 1) first) (a :: text) =
      run mem (.hex length (u * 16 + d) k first) text := by
  refine run_feed ?_ ?_ text
  · rintro rfl
    cases ha
  · simp only [Pass.feed, Pass.feedPlain, Pass.feedHex, ha]

/-- After the fourth digit of an escape. -/
def afterHex (mem : SecondMem) (length u : Nat) : Option Nat → Option (Pass SecondMem)
  | some v => Pass.addBytes secondPass mem length (encodeUchar (pairUchar v u))
  | none =>
    if isSurrogate u then some ⟨mem, .pair length u false⟩
    else Pass.addBytes secondPass mem length (encodeUchar u)

theorem run_hex4 {mem : SecondMem} {length : Nat} {first : Option Nat} {a b c d : UInt8} {u : Nat}
    (h : hex4 a b c d = some u) (text : Bytes) :
    run mem (.hex length 0 3 first) (a :: b :: c :: d :: text) =
      (afterHex mem length u first).bind fun p => run p.mem p.pc text := by
  unfold hex4 at h
  split at h
  · rename_i w x y z hw hx hy hz
    cases h
    rw [run_digit hw, run_digit hx, run_digit hy, Nat.zero_mul, Nat.zero_add]
    refine run_bind ?_ ?_ text
    · rintro rfl
      cases hz
    · simp only [Pass.feed, Pass.feedPlain, Pass.feedHex, hz]
      cases first <;> rfl
  · cases h

/-- A string of the grammar, where the bytes can be written. `W` is the
memory with so many of them. -/
theorem run_chars {W : Bytes → SecondMem} {total : Bytes}
    (hW : ∀ a b, a ++ b <+: total → ∀ n, secondPass.add n b (W a) = some (W (a ++ b)))
    {text s rest : Bytes} (h : Chars text s rest) : ∀ acc, acc ++ s = total →
      run (W acc) (.string acc.length) text =
        (Pass.closeString secondPass (W total) total.length).bind fun p =>
          run p.mem p.pc rest := by
  have hadd : ∀ {acc add s : Bytes}, acc ++ (add ++ s) = total →
      Pass.addBytes secondPass (W acc) acc.length add =
        some ⟨W (acc ++ add), .string (acc ++ add).length⟩ := by
    intro acc add s htotal
    have hprefix : acc ++ add <+: total := ⟨s, by rw [List.append_assoc, htotal]⟩
    rw [Pass.addBytes, hW acc add hprefix, Option.map_some, List.length_append]
  induction h with
  | close rest =>
    intro acc htotal
    rw [List.append_nil] at htotal
    subst htotal
    exact run_bind (by decide) (by simp only [Pass.feed, Pass.feedPlain]; rfl) _
  | @byte b text s rest h0 hq hs _ ih =>
    intro acc htotal
    have hfeed : Pass.feed secondPass ⟨W acc, .string acc.length⟩ b =
        some ⟨W (acc ++ [b]), .string (acc ++ [b]).length⟩ := by
      simp only [Pass.feed, Pass.feedPlain, if_neg hs, if_neg hq]
      exact hadd (s := s) htotal
    rw [run_feed h0 hfeed]
    exact ih (acc ++ [b]) (by rw [List.append_assoc]; exact htotal)
  | @escape b text s rest h0 hu _ ih =>
    intro acc htotal
    have hslash : Pass.feed secondPass ⟨W acc, .string acc.length⟩ 92 =
        some ⟨W acc, .escaped acc.length⟩ := rfl
    have hfeed : Pass.feed secondPass ⟨W acc, .escaped acc.length⟩ b =
        some ⟨W (acc ++ [unescape b]), .string (acc ++ [unescape b]).length⟩ := by
      simp only [Pass.feed, Pass.feedPlain, if_neg hu]
      exact hadd (s := s) htotal
    rw [run_feed (by decide) hslash, run_feed h0 hfeed]
    exact ih (acc ++ [unescape b]) (by rw [List.append_assoc]; exact htotal)
  | @unicode a b c d u text s rest hu hsur _ ih =>
    intro acc htotal
    have hslash : Pass.feed secondPass ⟨W acc, .string acc.length⟩ 92 =
        some ⟨W acc, .escaped acc.length⟩ := rfl
    have hu' : Pass.feed secondPass ⟨W acc, .escaped acc.length⟩ 117 =
        some ⟨W acc, .hex acc.length 0 3 none⟩ := rfl
    have hafter : afterHex (W acc) acc.length u none =
        some ⟨W (acc ++ encodeUchar u), .string (acc ++ encodeUchar u).length⟩ := by
      rw [afterHex, if_neg (by rw [hsur]; decide)]
      exact hadd (s := s) htotal
    rw [run_feed (by decide) hslash, run_feed (by decide) hu', run_hex4 hu, hafter,
      Option.bind_some]
    exact ih _ (by rw [List.append_assoc]; exact htotal)
  | @pair a b c d a' b' c' d' u u' text s rest hu hsur hu' _ ih =>
    intro acc htotal
    have hslash : Pass.feed secondPass ⟨W acc, .string acc.length⟩ 92 =
        some ⟨W acc, .escaped acc.length⟩ := rfl
    have hfirst : Pass.feed secondPass ⟨W acc, .escaped acc.length⟩ 117 =
        some ⟨W acc, .hex acc.length 0 3 none⟩ := rfl
    have hpair : afterHex (W acc) acc.length u none =
        some ⟨W acc, .pair acc.length u false⟩ := by
      rw [afterHex, if_pos hsur]
    have hslash' : Pass.feed secondPass ⟨W acc, .pair acc.length u false⟩ 92 =
        some ⟨W acc, .pair acc.length u true⟩ := rfl
    have hsecond : Pass.feed secondPass ⟨W acc, .pair acc.length u true⟩ 117 =
        some ⟨W acc, .hex acc.length 0 3 (some u)⟩ := rfl
    have hafter : afterHex (W acc) acc.length u' (some u) =
        some ⟨W (acc ++ encodeUchar (pairUchar u u')),
          .string (acc ++ encodeUchar (pairUchar u u')).length⟩ :=
      hadd (s := s) htotal
    rw [run_feed (by decide) hslash, run_feed (by decide) hfirst, run_hex4 hu, hpair,
      Option.bind_some]
    dsimp only
    rw [run_feed (by decide) hslash', run_feed (by decide) hsecond, run_hex4 hu', hafter,
      Option.bind_some]
    exact ih _ (by rw [List.append_assoc]; exact htotal)

/-! ### Numbers -/

theorem isNumeric_digits {ds : Bytes} (h : Digits ds) : ∀ b ∈ ds, isNumeric b = true := by
  intro b hb
  simp [isNumeric, h b hb]

theorem isNumeric_sign (negative : Bool) : ∀ b ∈ sign negative, isNumeric b = true := by
  intro b hb
  cases negative with
  | true => rw [List.mem_singleton.mp hb]; rfl
  | false => cases hb

theorem isNumeric_significand {t : Bytes} {v : JsonValue} (h : Significand t v) :
    ∀ b ∈ t, isNumeric b = true := by
  cases h with
  | integer hds _ _ =>
    exact List.forall_mem_append.mpr ⟨isNumeric_sign _, isNumeric_digits hds.1⟩
  | large hds _ =>
    exact List.forall_mem_append.mpr ⟨isNumeric_sign _, isNumeric_digits hds.1⟩
  | fraction hds _ _ hfs _ =>
    refine List.forall_mem_append.mpr ⟨List.forall_mem_append.mpr
      ⟨isNumeric_sign _, isNumeric_digits hds.1⟩, ?_⟩
    exact List.forall_mem_cons.mpr ⟨rfl, isNumeric_digits hfs⟩

/-- The second pass takes all of a number for one. -/
theorem isNumeric_numeral {t : Bytes} {v : JsonValue} (h : Numeral t v) :
    ∀ b ∈ t, isNumeric b = true := by
  cases h with
  | plain ht => exact isNumeric_significand ht
  | exponent ht he hsign hds _ =>
    refine List.forall_mem_append.mpr ⟨isNumeric_significand ht,
      List.forall_mem_cons.mpr ⟨?_, List.forall_mem_append.mpr ⟨?_, isNumeric_digits hds⟩⟩⟩
    · rcases he with rfl | rfl <;> rfl
    · rcases hsign with rfl | rfl | rfl
      · exact List.forall_mem_nil _
      · exact List.forall_mem_singleton.mpr rfl
      · exact List.forall_mem_singleton.mpr rfl

theorem isNumeric_ends {b : UInt8} (h : Number.Ends b) : isNumeric b = false := by
  obtain ⟨hdigit, h46, h43, h45, h101, h69⟩ := h
  simp [isNumeric, hdigit, h46, h43, h45, h101, h69]

theorem run_skip {mem : SecondMem} {t : Bytes} (h : ∀ b ∈ t, isNumeric b = true)
    (rest : Bytes) : run mem .skip (t ++ rest) = run mem .skip rest := by
  induction t with
  | nil => rfl
  | cons b t ih =>
    obtain ⟨hb, h⟩ := List.forall_mem_cons.mp h
    have h0 : b ≠ 0 := by
      rintro rfl
      cases hb
    rw [List.cons_append, ← ih h]
    exact run_feed h0 (by simp only [Pass.feed, hb, if_true]) _

/-- `flag_next` leaves no number open. -/
theorem feed_next {mem : SecondMem} {p : Pass SecondMem} (h : Pass.next secondPass mem = some p)
    (b : UInt8) : Pass.feed secondPass p b = Pass.feedPlain secondPass p.mem p.pc b := by
  unfold Pass.next at h
  split at h
  · cases h
    rfl
  · obtain ⟨mem', -, rfl⟩ := Option.map_eq_some_iff.mp h
    rfl
  · obtain ⟨mem', -, rfl⟩ := Option.map_eq_some_iff.mp h
    rfl

/-- After a number at the end of the text. -/
theorem endRoot_next (mem : SecondMem) :
    Pass.endRoot secondPass mem =
      (Pass.next secondPass mem).bind fun p => Pass.atEnd secondPass p := by
  unfold Pass.endRoot Pass.next
  cases secondPass.parentType mem with
  | none => rfl
  | some type => cases type <;> cases secondPass.attach mem <;> rfl

/-- Where the number ends, the value goes to its parent. -/
theorem run_skip_ends {mem : SecondMem} {rest : Bytes} (h : Parser.EndsNumber rest) :
    run mem .skip rest =
      (Pass.next secondPass mem).bind fun p => run p.mem p.pc rest := by
  cases rest with
  | nil => exact endRoot_next mem
  | cons b rest =>
    by_cases h0 : b = 0
    · subst h0
      exact endRoot_next mem
    · have hb : isNumeric b = false := isNumeric_ends h
      rw [run, Pass.run, if_neg h0]
      simp only [Pass.feed, hb, Bool.false_eq_true, if_false]
      cases hnext : Pass.next secondPass mem with
      | none => rfl
      | some p =>
        rw [Option.bind_some, Option.bind_some, run, Pass.run, if_neg h0, ← feed_next hnext]

/-- A value that is complete when it is new. -/
def isScalar : JsonValue → Bool
  | .object _ | .array _ | .string _ => false
  | _ => true

theorem newValue_scalar {mem : SecondMem} {v : JsonValue} (hv : isScalar v = true)
    (h : mem.Awaits (layout mem.top mem.built.length v)) (w : JsonValue) :
    secondPass.newValue w mem = some (mem.valueDone v) := by
  cases v with
  | object es => cases hv
  | array vs => cases hv
  | string s => cases hv
  | integer n => exact newValue_awaits h w
  | double text => exact newValue_awaits h w
  | boolean b => exact newValue_awaits h w
  | null => exact newValue_awaits h w

theorem run_numeral {mem : SecondMem} {t rest : Bytes} {v : JsonValue} (hv : Numeral t v)
    (hrest : Parser.EndsNumber rest) (h : mem.Awaits (layout mem.top mem.built.length v)) :
    run mem (.seek false false) (t ++ rest) =
      (Pass.next secondPass (mem.valueDone v)).bind fun p => run p.mem p.pc rest := by
  have hscalar : isScalar v = true := by
    cases hv with
    | plain ht => cases ht <;> rfl
    | exponent => rfl
  have hnumeric := isNumeric_numeral hv
  obtain ⟨b, t', rfl, hb⟩ : ∃ b t', t = b :: t' ∧ (b = 45 ∨ isDigit b = true) := by
    obtain ⟨negative, body, _, rfl, hbegins, -, -⟩ := Number.steps_numeral hv
    cases negative with
    | true => exact ⟨45, body, rfl, .inl rfl⟩
    | false =>
      obtain ⟨b, rest, rfl, hb⟩ := hbegins.resolve_left Bool.false_ne_true
      exact ⟨b, rest, rfl, .inr hb⟩
  have h0 : b ≠ 0 := by
    rintro rfl
    rcases hb with hb | hb <;> cases hb
  have hfeed : Pass.feed secondPass ⟨mem, .seek false false⟩ b =
      some ⟨mem.valueDone v, .skip⟩ := by
    have hne : ∀ c, c ≠ 45 → isDigit c = false → b ≠ c := by
      rintro c h45 hc rfl
      rcases hb with hb | hb
      · exact h45 hb
      · exact absurd (hc.symm.trans hb) Bool.false_ne_true
    have hws : isWhitespace b = false := by
      by_contra hws
      rw [Bool.not_eq_false, Parser.isWhitespace_iff] at hws
      rcases hws with rfl | rfl | rfl | rfl <;> rcases hb with hb | hb <;> cases hb
    simp only [Pass.feed, Pass.feedPlain, Pass.feedSeek, Pass.openValue, hws, if_pos hb,
      if_neg (hne 93 (by decide) rfl), if_neg (hne 123 (by decide) rfl),
      if_neg (hne 91 (by decide) rfl), if_neg (hne 34 (by decide) rfl),
      if_neg (hne 116 (by decide) rfl), if_neg (hne 102 (by decide) rfl),
      if_neg (hne 110 (by decide) rfl), newValue_scalar hscalar h, Option.bind_some,
      Bool.false_eq_true, if_false]
    rfl
  rw [List.cons_append, run_feed h0 hfeed, run_skip (List.forall_mem_cons.mp hnumeric).2,
    run_skip_ends hrest]

/-! ### Values -/

theorem run_literal (mem : SecondMem) (v : JsonValue) (c : UInt8) (rest : Bytes) :
    ∀ word : Bytes, (0 : UInt8) ∉ word ++ [c] →
      run mem (.literal (word ++ [c]) v) (word ++ c :: rest) =
        ((secondPass.newValue v mem).bind (Pass.next secondPass)).bind fun p =>
          run p.mem p.pc rest
  | [], h0 => run_bind (fun h => h0 (h ▸ List.mem_singleton_self _))
      (by simp only [List.nil_append, Pass.feed, Pass.feedPlain, if_true]) rest
  | b :: word, h0 => by
      obtain ⟨hb, h0⟩ := List.ne_and_not_mem_of_not_mem_cons h0
      rw [← run_literal mem v c rest word h0]
      refine run_feed hb.symm ?_ _
      cases word <;> simp [Pass.feed, Pass.feedPlain]

/-- The array at `top` after a value in it. -/
theorem next_valueDone_inArray {measured : List MeasuredCell} {l r : List BuiltCell}
    {parent : Option Nat} {room k : Nat} {elements : List Nat} (hk : l.length + (r.length + 1) = k)
    (hroom : elements.length < room) (v : JsonValue) :
    Pass.next secondPass ((inArray measured l parent room elements r).valueDone v) =
      some ⟨inArray measured l parent room (elements ++ [k]) (r ++ fill (some l.length) k v),
        .seek true false⟩ := by
  have hparent := valueDone_parent (inArray measured l parent room elements r) v
  have hmem : (inArray measured l parent room elements r).valueDone v =
      ⟨measured, l ++ ⟨parent, .array room elements⟩ :: (r ++ fill (some l.length) k v),
        some k⟩ := by
    simp only [valueDone, inArray, List.length_append, List.length_cons, hk, List.append_assoc,
      List.cons_append]
  rw [hmem] at hparent ⊢
  exact next_inArray hparent hroom

/-- The object at `top` after a value in it. -/
theorem next_valueDone_inObject {measured : List MeasuredCell} {l r : List BuiltCell}
    {parent : Option Nat} {room nameRoom used k : Nat} {name : Bytes}
    {entries : List (Bytes × Nat)} (hk : l.length + (r.length + 1) = k)
    (hroom : entries.length < room) (v : JsonValue) :
    Pass.next secondPass
      ((inObject measured l parent room nameRoom used name entries r).valueDone v) =
      some ⟨inObject measured l parent room nameRoom used [] (entries ++ [(name, k)])
        (r ++ fill (some l.length) k v), .object true⟩ := by
  have hparent := valueDone_parent (inObject measured l parent room nameRoom used name entries r) v
  have hmem : (inObject measured l parent room nameRoom used name entries r).valueDone v =
      ⟨measured, l ++ ⟨parent, .object room nameRoom used name entries⟩ ::
        (r ++ fill (some l.length) k v), some k⟩ := by
    simp only [valueDone, inObject, List.length_append, List.length_cons, hk, List.append_assoc,
      List.cons_append]
  rw [hmem] at hparent ⊢
  exact next_inObject hparent hroom

/-- A string value, from its opening quote. -/
theorem run_string {mem : SecondMem} {text s rest : Bytes} (hs : Chars text s rest)
    (h : mem.Awaits (layout mem.top mem.built.length (.string s))) :
    run mem (.seek false false) (34 :: text) =
      (Pass.next secondPass (mem.valueDone (.string s))).bind fun p => run p.mem p.pc rest := by
  have hnew := newValue_awaits h (.string [])
  have hW : ∀ a b, a ++ b <+: s → ∀ n, secondPass.add n b
      ⟨mem.measured, mem.built ++ [⟨mem.top, .string s.length a⟩], some mem.built.length⟩ =
      some ⟨mem.measured, mem.built ++ [⟨mem.top, .string s.length (a ++ b)⟩],
        some mem.built.length⟩ := by
    intro a b hab n
    have hle := hab.length_le
    rw [List.length_append] at hle
    simp only [secondPass, update_at, write]
    rw [if_pos (by omega), Option.map_some]
  have hclose : Pass.closeString secondPass
      ⟨mem.measured, mem.built ++ [⟨mem.top, .string s.length s⟩], some mem.built.length⟩
      s.length = Pass.next secondPass (mem.valueDone (.string s)) := by
    have htype : secondPass.topType ⟨mem.measured,
        mem.built ++ [⟨mem.top, .string s.length s⟩], some mem.built.length⟩ = some .string := by
      simp only [secondPass, cell, Option.bind_some, built_at, Option.map_some, Built.type]
    have hend : secondPass.endString s.length ⟨mem.measured,
        mem.built ++ [⟨mem.top, .string s.length s⟩], some mem.built.length⟩ =
        some (mem.valueDone (.string s)) := by
      simp only [secondPass, update_at, terminate, if_pos (Nat.lt_succ_self s.length),
        Option.map_some]
      rfl
    simp only [Pass.closeString, htype, hend, Option.bind_some]
  have hfeed : Pass.feed secondPass ⟨mem, .seek false false⟩ 34 = some
      ⟨⟨mem.measured, mem.built ++ [⟨mem.top, .string s.length []⟩], some mem.built.length⟩,
        .string 0⟩ := by
    rw [show Pass.feed secondPass ⟨mem, .seek false false⟩ 34 =
      (secondPass.newValue (.string []) mem).map (⟨·, .string 0⟩) from rfl, hnew]
    rfl
  rw [run_feed (by decide) hfeed, ← hclose]
  exact run_chars hW hs [] rfl

/-- A name, from its opening quote to its colon. -/
theorem run_name {measured : List MeasuredCell} {l r : List BuiltCell} {parent : Option Nat}
    {room nameRoom used : Nat} {entries : List (Bytes × Nat)} {text s rest : Bytes}
    (hs : Chars text s rest) (hroom : entries.length < room)
    (hname : used + s.length < nameRoom) :
    run (inObject measured l parent room nameRoom used [] entries r) (.object false)
        (34 :: text) =
      run (inObject measured l parent room nameRoom (used + s.length + 1) s entries r)
        (.seek false true) rest := by
  have hW : ∀ a b, a ++ b <+: s → ∀ n, secondPass.add n b
      (inObject measured l parent room nameRoom used a entries r) =
      some (inObject measured l parent room nameRoom used (a ++ b) entries r) := by
    intro a b hab n
    have hle := hab.length_le
    rw [List.length_append] at hle
    simp only [secondPass, inObject, update_at, write]
    rw [if_pos (by omega), Option.map_some]
  have hclose : Pass.closeString secondPass
      (inObject measured l parent room nameRoom used s entries r) s.length =
      some ⟨inObject measured l parent room nameRoom (used + s.length + 1) s entries r,
        .seek false true⟩ := by
    have htype : secondPass.topType (inObject measured l parent room nameRoom used s entries r) =
        some .object := by
      simp only [secondPass, cell, inObject, Option.bind_some, built_at, Option.map_some,
        Built.type]
    have hend : secondPass.endName s.length
        (inObject measured l parent room nameRoom used s entries r) =
        some (inObject measured l parent room nameRoom (used + s.length + 1) s entries r) := by
      simp only [secondPass, inObject, update_at, terminateName, if_pos (And.intro hname hroom),
        Option.map_some]
    simp only [Pass.closeString, htype, hend, Option.map_some]
  have hfeed : Pass.feed secondPass
      ⟨inObject measured l parent room nameRoom used [] entries r, .object false⟩ 34 =
      some ⟨inObject measured l parent room nameRoom used [] entries r, .string 0⟩ := rfl
  have hrun := run_chars hW hs [] rfl
  rw [hclose] at hrun
  rw [run_feed (by decide) hfeed]
  exact hrun

/-- The bracket that closes the array at `top`. -/
theorem run_closeArray {measured : List MeasuredCell} {l r : List BuiltCell}
    {parent : Option Nat} {room : Nat} {elements : List Nat} {c : Bool} (rest : Bytes) :
    run (inArray measured l parent room elements r) (.seek c false) (93 :: rest) =
      (Pass.next secondPass (inArray measured l parent room elements r)).bind fun p =>
        run p.mem p.pc rest := by
  have htype : secondPass.topType (inArray measured l parent room elements r) = some .array := by
    simp only [secondPass, cell, inArray, Option.bind_some, built_at, Option.map_some, Built.type]
  refine run_bind (by decide) ?_ rest
  have hfeed : Pass.feed secondPass ⟨inArray measured l parent room elements r, .seek c false⟩ 93 =
      if secondPass.topType (inArray measured l parent room elements r) = some .array then
        Pass.next secondPass (inArray measured l parent room elements r) else none := rfl
  rw [hfeed, if_pos htype]

theorem run_closeObject {mem : SecondMem} {c : Bool} (rest : Bytes) :
    run mem (.object c) (125 :: rest) =
      (Pass.next secondPass mem).bind fun p => run p.mem p.pc rest :=
  run_bind (by decide) rfl rest

/-- The room that an array has for the values that are still to come. -/
structure ArrayRoom (measured : List MeasuredCell) (l r : List BuiltCell) (parent : Option Nat)
    (room k : Nat) (elements : List Nat) (vs : List JsonValue) : Prop where
  cells : l.length + (r.length + 1) = k
  fits : elements.length + vs.length ≤ room
  awaits : (inArray measured l parent room elements r).Awaits (layoutValues l.length k vs)

/-- The room that an object has for the entries that are still to
come. -/
structure ObjectRoom (measured : List MeasuredCell) (l r : List BuiltCell) (parent : Option Nat)
    (room nameRoom used k : Nat) (entries : List (Bytes × Nat))
    (es : List (Bytes × JsonValue)) : Prop where
  cells : l.length + (r.length + 1) = k
  fits : entries.length + es.length ≤ room
  names : used + namesSize es ≤ nameRoom
  awaits : (inObject measured l parent room nameRoom used [] entries r).Awaits
    (layoutEntries l.length k es)

section Room

variable {measured : List MeasuredCell} {l r : List BuiltCell} {parent : Option Nat}
  {room nameRoom used k : Nat}

/-- The value that is next in an array. -/
theorem ArrayRoom.value {elements : List Nat} {v : JsonValue} {vs : List JsonValue}
    (h : ArrayRoom measured l r parent room k elements (v :: vs)) :
    (inArray measured l parent room elements r).Awaits
      (layout (some l.length) (inArray measured l parent room elements r).built.length v) := by
  have hlen : (inArray measured l parent room elements r).built.length = k := by
    simp only [inArray, List.length_append, List.length_cons, h.cells]
  rw [hlen]
  exact Awaits.left h.awaits

/-- The room after it. -/
theorem ArrayRoom.rest {elements : List Nat} {v : JsonValue} {vs : List JsonValue}
    (h : ArrayRoom measured l r parent room k elements (v :: vs)) :
    ArrayRoom measured l (r ++ fill (some l.length) k v) parent room (k + cellCount v)
      (elements ++ [k]) vs := by
  obtain ⟨hcells, hroom, hawaits⟩ := h
  rw [layoutValues] at hawaits
  refine ⟨?_, ?_, hawaits.drop rfl ?_⟩
  · rw [List.length_append, length_fill]
    omega
  · rw [List.length_cons] at hroom
    rw [List.length_append, List.length_singleton]
    omega
  · simp only [inArray, List.length_append, List.length_cons, length_fill, length_layout]
    omega

theorem ObjectRoom.value {entries : List (Bytes × Nat)} {name : Bytes} {v : JsonValue}
    {es : List (Bytes × JsonValue)}
    (h : ObjectRoom measured l r parent room nameRoom used k entries ((name, v) :: es)) :
    (inObject measured l parent room nameRoom (used + name.length + 1) name entries r).Awaits
      (layout (some l.length)
        (inObject measured l parent room nameRoom (used + name.length + 1) name entries
          r).built.length v) := by
  have hlen : (inObject measured l parent room nameRoom (used + name.length + 1) name entries
      r).built.length = k := by
    simp only [inObject, List.length_append, List.length_cons, h.cells]
  have hleft : (inObject measured l parent room nameRoom used [] entries r).Awaits
      (layoutEntry l.length k (name, v)) := Awaits.left h.awaits
  rw [hlen]
  simpa only [Awaits, inObject, List.length_append, List.length_cons, layoutEntry] using hleft

theorem ObjectRoom.rest {entries : List (Bytes × Nat)} {name : Bytes} {v : JsonValue}
    {es : List (Bytes × JsonValue)}
    (h : ObjectRoom measured l r parent room nameRoom used k entries ((name, v) :: es)) :
    ObjectRoom measured l (r ++ fill (some l.length) k v) parent room nameRoom
      (used + name.length + 1) (k + cellCount v) (entries ++ [(name, k)]) es := by
  obtain ⟨hcells, hroom, hnames, hawaits⟩ := h
  rw [layoutEntries] at hawaits
  refine ⟨?_, ?_, ?_, hawaits.drop rfl ?_⟩
  · rw [List.length_append, length_fill]
    omega
  · rw [List.length_cons] at hroom
    rw [List.length_append, List.length_singleton]
    omega
  · simp only [namesSize, List.map_cons, List.sum_cons] at hnames ⊢
    omega
  · simp only [inObject, List.length_append, List.length_cons, length_fill, layoutEntry,
      length_layout]
    omega

end Room

theorem namesSize_cons (used : Nat) (name : Bytes) (v : JsonValue)
    (es : List (Bytes × JsonValue)) :
    used + namesSize ((name, v) :: es) = used + name.length + 1 + namesSize es := by
  simp only [namesSize, List.map_cons, List.sum_cons]
  omega

/-- A new array has the room for its values. -/
theorem arrayRoom_new {mem : SecondMem} {vs : List JsonValue}
    (h : mem.Awaits (layout mem.top mem.built.length (.array vs))) :
    ArrayRoom mem.measured mem.built [] mem.top vs.length (mem.built.length + 1) [] vs := by
  rw [layout, ← List.singleton_append] at h
  refine ⟨rfl, by rw [List.length_nil, Nat.zero_add], h.drop rfl ?_⟩
  rw [inArray, List.length_append, List.length_singleton, List.length_singleton]

theorem feed_openArray {mem : SecondMem} {vs : List JsonValue}
    (h : mem.Awaits (layout mem.top mem.built.length (.array vs))) :
    Pass.feed secondPass ⟨mem, .seek false false⟩ 91 =
      some ⟨inArray mem.measured mem.built mem.top vs.length [] [], .seek false false⟩ := by
  have hfeed : Pass.feed secondPass ⟨mem, .seek false false⟩ 91 =
      (secondPass.newValue (.array []) mem).map (⟨·, .seek false false⟩) := rfl
  rw [hfeed, newValue_awaits h]
  rfl

/-- A new object has the room for its entries and their names. -/
theorem objectRoom_new {mem : SecondMem} {es : List (Bytes × JsonValue)}
    (h : mem.Awaits (layout mem.top mem.built.length (.object es))) :
    ObjectRoom mem.measured mem.built [] mem.top es.length (namesSize es) 0
      (mem.built.length + 1) [] es := by
  rw [layout, ← List.singleton_append] at h
  refine ⟨rfl, by rw [List.length_nil, Nat.zero_add], by rw [Nat.zero_add], h.drop rfl ?_⟩
  rw [inObject, List.length_append, List.length_singleton, List.length_singleton]

theorem feed_openObject {mem : SecondMem} {es : List (Bytes × JsonValue)}
    (h : mem.Awaits (layout mem.top mem.built.length (.object es))) :
    Pass.feed secondPass ⟨mem, .seek false false⟩ 123 =
      some ⟨inObject mem.measured mem.built mem.top es.length (namesSize es) 0 [] [] [],
        .object false⟩ := by
  have hfeed : Pass.feed secondPass ⟨mem, .seek false false⟩ 123 =
      (secondPass.newValue (.object []) mem).map (⟨·, .object false⟩) := rfl
  rw [hfeed, newValue_awaits h]
  rfl

mutual

/-- Where a value is next, its text adds its cells. -/
theorem run_value : ∀ {text : Bytes} {v : JsonValue} {rest : Bytes}, Value text v rest →
    Parser.EndsNumber rest → ∀ mem : SecondMem,
    mem.Awaits (layout mem.top mem.built.length v) →
    run mem (.seek false false) text =
      (Pass.next secondPass (mem.valueDone v)).bind fun p => run p.mem p.pc rest
  | _, _, _, .null rest, _, mem, h => by
      have hliteral := run_literal mem .null 108 rest (ascii "ul") (by decide)
      rw [newValue_scalar rfl h, Option.bind_some] at hliteral
      exact (run_feed (by decide) rfl _).trans hliteral
  | _, _, _, .true rest, _, mem, h => by
      have hliteral := run_literal mem (.boolean true) 101 rest (ascii "ru") (by decide)
      rw [newValue_scalar rfl h, Option.bind_some] at hliteral
      exact (run_feed (by decide) rfl _).trans hliteral
  | _, _, _, .false rest, _, mem, h => by
      have hliteral := run_literal mem (.boolean false) 101 rest (ascii "als") (by decide)
      rw [newValue_scalar rfl h, Option.bind_some] at hliteral
      exact (run_feed (by decide) rfl _).trans hliteral
  | _, _, _, .number rest hv, hrest, mem, h => run_numeral hv hrest h
  | _, _, _, .string hs, _, mem, h => run_string hs h
  | _, _, _, .array hvs, _, mem, h => by
      rw [run_feed (by decide) (feed_openArray h), run_values hvs (arrayRoom_new h),
        List.nil_append, List.nil_append]
      rfl
  | _, _, _, .object hes, _, mem, h => by
      rw [run_feed (by decide) (feed_openObject h), run_entries hes (objectRoom_new h),
        List.nil_append, List.nil_append, Nat.zero_add]
      rfl

theorem run_values : ∀ {text rest : Bytes} {vs : List JsonValue}, Values text vs rest →
    ∀ {measured : List MeasuredCell} {l r : List BuiltCell} {parent : Option Nat} {room k : Nat}
      {elements : List Nat}, ArrayRoom measured l r parent room k elements vs →
    run (inArray measured l parent room elements r) (.seek false false) text =
      (Pass.next secondPass (inArray measured l parent room (elements ++ valueCells k vs)
        (r ++ fillValues l.length k vs))).bind fun p => run p.mem p.pc rest
  | _, _, _, .close hws, _, _, _, _, _, _, _, _ => by
      rw [run_ws_seek hws, run_closeArray, valueCells, fillValues, List.append_nil,
        List.append_nil]
  | _, _, _, .value hws hv hmore, _, _, _, _, _, _, _, h => by
      have hroom := h.fits
      rw [List.length_cons] at hroom
      rw [run_ws_seek hws, run_value hv (Parser.endsNumber_moreValues hmore) _ h.value,
        next_valueDone_inArray h.cells (by omega), Option.bind_some, run_moreValues hmore h.rest,
        valueCells, fillValues, List.append_assoc, List.append_assoc, List.singleton_append]

theorem run_moreValues : ∀ {text rest : Bytes} {vs : List JsonValue}, MoreValues text vs rest →
    ∀ {measured : List MeasuredCell} {l r : List BuiltCell} {parent : Option Nat} {room k : Nat}
      {elements : List Nat}, ArrayRoom measured l r parent room k elements vs →
    run (inArray measured l parent room elements r) (.seek true false) text =
      (Pass.next secondPass (inArray measured l parent room (elements ++ valueCells k vs)
        (r ++ fillValues l.length k vs))).bind fun p => run p.mem p.pc rest
  | _, _, _, .close hws, _, _, _, _, _, _, _, _ => by
      rw [run_ws_seek hws, run_closeArray, valueCells, fillValues, List.append_nil,
        List.append_nil]
  | _, _, _, .comma hws hvs, _, _, _, _, _, _, _, h => by
      rw [run_ws_seek hws, ← run_values hvs h]
      exact run_feed (by decide) rfl _

theorem run_entries : ∀ {text rest : Bytes} {es : List (Bytes × JsonValue)},
    Entries text es rest →
    ∀ {measured : List MeasuredCell} {l r : List BuiltCell} {parent : Option Nat}
      {room nameRoom used k : Nat} {entries : List (Bytes × Nat)},
      ObjectRoom measured l r parent room nameRoom used k entries es →
    run (inObject measured l parent room nameRoom used [] entries r) (.object false) text =
      (Pass.next secondPass (inObject measured l parent room nameRoom (used + namesSize es) []
        (entries ++ entryCells k es) (r ++ fillEntries l.length k es))).bind fun p =>
        run p.mem p.pc rest
  | _, _, _, .close hws, _, _, _, _, _, _, _, _, _, _ => by
      rw [run_ws_object hws, run_closeObject, entryCells, fillEntries, List.append_nil,
        List.append_nil]
      rfl
  | _, _, _, .entry hws hs hcolon hws' hv hmore, _, _, _, _, _, _, _, _, _, h => by
      have hroom := h.fits
      have hnames := h.names
      rw [List.length_cons] at hroom
      simp only [namesSize, List.map_cons, List.sum_cons] at hnames
      rw [run_ws_object hws, run_name hs (by omega) (by omega), run_ws_seek hcolon,
        run_feed (by decide) rfl, run_ws_seek hws',
        run_value hv (Parser.endsNumber_moreEntries hmore) _ h.value,
        next_valueDone_inObject h.cells (by omega), Option.bind_some,
        run_moreEntries hmore h.rest, entryCells, fillEntries, List.append_assoc,
        List.append_assoc, List.singleton_append, namesSize_cons]
      rfl

theorem run_moreEntries : ∀ {text rest : Bytes} {es : List (Bytes × JsonValue)},
    MoreEntries text es rest →
    ∀ {measured : List MeasuredCell} {l r : List BuiltCell} {parent : Option Nat}
      {room nameRoom used k : Nat} {entries : List (Bytes × Nat)},
      ObjectRoom measured l r parent room nameRoom used k entries es →
    run (inObject measured l parent room nameRoom used [] entries r) (.object true) text =
      (Pass.next secondPass (inObject measured l parent room nameRoom (used + namesSize es) []
        (entries ++ entryCells k es) (r ++ fillEntries l.length k es))).bind fun p =>
        run p.mem p.pc rest
  | _, _, _, .close hws, _, _, _, _, _, _, _, _, _, _ => by
      rw [run_ws_object hws, run_closeObject, entryCells, fillEntries, List.append_nil,
        List.append_nil]
      rfl
  | _, _, _, .comma hws hes, _, _, _, _, _, _, _, _, _, h => by
      rw [run_ws_object hws, ← run_entries hes h]
      exact run_feed (by decide) rfl _

end

theorem run_done {mem : SecondMem} {text rest : Bytes} (hws : Ws text rest) (hend : Ended rest) :
    run mem .done text = some mem := by
  induction hws with
  | nil text =>
    cases text with
    | nil => rfl
    | cons b text =>
      obtain rfl : b = 0 := hend
      rfl
  | cons hb _ ih =>
    rw [← ih hend]
    exact run_feed (Parser.ne_zero_of_isWhitespace hb)
      (by simp only [Pass.feed, Pass.feedPlain, hb, if_true]) _

/-- The second pass over a text that the first has accepted. -/
theorem run_text {text : Bytes} {v : JsonValue} (h : Text text v) :
    run ⟨layout none 0 v, [], none⟩ (.seek false false) text =
      some ⟨layout none 0 v, fill none 0 v, some 0⟩ := by
  cases h with
  | mk hws hv hws' hend =>
    have hroot : SecondMem.parent (valueDone ⟨layout none 0 v, [], none⟩ v) = none :=
      valueDone_parent ..
    have hawaits : SecondMem.Awaits ⟨layout none 0 v, [], none⟩ (layout none 0 v) :=
      List.prefix_refl _
    rw [run_ws_seek hws, run_value hv (.of_ws hws' (.ended hend)) _ hawaits, next_root hroot, Option.bind_some, run_done hws' hend]
    rfl

end SecondPass

/-- `json_parse_ex`: the values that the two passes leave. -/
theorem jsonParseEx_eq (text : Bytes) : jsonParseEx text = (jsonParse text).map (fill none 0) := by
  rw [jsonParseEx, run_firstPass]
  cases hparse : jsonParse text with
  | none => rfl
  | some v =>
    have hrun := SecondPass.run_text (jsonParse_eq_some_iff.mp hparse)
    rw [SecondPass.run] at hrun
    simp only [Option.map_some, Option.bind_some, hrun]

/-! ## What the cells hold -/

/-- No room is left. -/
def Built.Full : Built → Prop
  | .object room nameRoom used _ entries => entries.length = room ∧ used = nameRoom
  | .array room elements => elements.length = room
  | .string room s => s.length = room
  | _ => True

theorem length_valueCells (k : Nat) (vs : List JsonValue) :
    (valueCells k vs).length = vs.length := by
  induction vs generalizing k with
  | nil => rfl
  | cons v vs ih => rw [valueCells, List.length_cons, ih, List.length_cons]

theorem length_entryCells (k : Nat) (es : List (Bytes × JsonValue)) :
    (entryCells k es).length = es.length := by
  induction es generalizing k with
  | nil => rfl
  | cons e es ih => rw [entryCells, List.length_cons, ih, List.length_cons]

mutual

theorem full_fill (parent : Option Nat) (k : Nat) :
    ∀ v : JsonValue, ∀ c ∈ fill parent k v, c.payload.Full
  | .object es => by
      rw [fill]
      exact List.forall_mem_cons.mpr ⟨⟨length_entryCells .., rfl⟩, full_fillEntries k (k + 1) es⟩
  | .array vs => by
      rw [fill]
      exact List.forall_mem_cons.mpr ⟨length_valueCells .., full_fillValues k (k + 1) vs⟩
  | .integer _ => List.forall_mem_singleton.mpr trivial
  | .double _ => List.forall_mem_singleton.mpr trivial
  | .string _ => List.forall_mem_singleton.mpr rfl
  | .boolean _ => List.forall_mem_singleton.mpr trivial
  | .null => List.forall_mem_singleton.mpr trivial

theorem full_fillEntry (parent k : Nat) :
    ∀ e : Bytes × JsonValue, ∀ c ∈ fillEntry parent k e, c.payload.Full
  | (_, v) => full_fill (some parent) k v

theorem full_fillEntries (parent k : Nat) :
    ∀ es : List (Bytes × JsonValue), ∀ c ∈ fillEntries parent k es, c.payload.Full
  | [] => fun _ h => nomatch h
  | e :: es => List.forall_mem_append.mpr
      ⟨full_fillEntry parent k e, full_fillEntries parent (k + cellCountEntry e) es⟩

theorem full_fillValues (parent k : Nat) :
    ∀ vs : List JsonValue, ∀ c ∈ fillValues parent k vs, c.payload.Full
  | [] => fun _ h => nomatch h
  | v :: vs => List.forall_mem_append.mpr
      ⟨full_fill (some parent) k v, full_fillValues parent (k + cellCount v) vs⟩

end

/-- A value of the parser as a `json_value`: it has no block for its
children if it has no children, and the names of an object are in the
block of its entries. -/
def BuiltCell.toCell (a : Nat) (c : BuiltCell) : JsonCell where
  parent := c.parent
  isBuilderValue := false
  additional := 0
  payload :=
    match c.payload with
    | .object room _ _ _ entries =>
      .object (if room = 0 then none else some a) (entries.map fun e => ⟨e.1, a, e.2⟩)
    | .array room elements => .array (if room = 0 then none else some a) elements
    | .string _ s => .string a s
    | .integer n => .integer n
    | .double text => .double text
    | .boolean b => .boolean b
    | .null => .null

/-- The memory with the values of the parser, the `k`th at `k`. -/
def cellMemory (cells : List BuiltCell) : JsonMemory := fun a =>
  match cells[a]? with
  | some c => c.toCell a
  | none => ⟨none, false, 0, .null⟩

theorem cellMemory_of {cells later : List BuiltCell} {c : BuiltCell} {k : Nat}
    (h : cells.drop k = c :: later) : cellMemory cells k = c.toCell k := by
  have hk : cells[k]? = some c := by
    rw [← List.head?_drop, h, List.head?_cons]
  simp only [cellMemory, hk]

/-- The cells behind some that have been looked at. -/
theorem prefix_drop {α : Type} {l a b : List α} {k n : Nat} (h : a ++ b <+: l.drop k)
    (hn : a.length = n) : b <+: l.drop (k + n) := by
  obtain ⟨later, h⟩ := h
  refine ⟨later, ?_⟩
  rw [← List.drop_drop, ← h, List.append_assoc, List.drop_append_of_le_length hn.ge,
    List.drop_eq_nil_of_le hn.le, List.nil_append]

/-- The addresses from the `k`th on. -/
abbrev range (k n : Nat) : List Nat := List.range' k n

theorem range_add (k m n : Nat) : range k (m + n) = range k m ++ range (k + m) n := by
  rw [range, range, range, List.range'_append_1]

theorem range_disjoint (k m n : Nat) : (range k m).Disjoint (range (k + m) n) := by
  intro a ha ha'
  rw [List.mem_range'_1] at ha ha'
  omega

theorem not_mem_range (k n : Nat) : k ∉ range (k + 1) n := by
  intro h
  rw [List.mem_range'_1] at h
  omega

section Memory

variable {cells : List BuiltCell}

/-- The cell at the root. -/
theorem cellMemory_root {c : BuiltCell} {rest : List BuiltCell} {k : Nat}
    (h : c :: rest <+: cells.drop k) : cellMemory cells k = c.toCell k := by
  obtain ⟨later, h⟩ := h
  exact cellMemory_of h.symm

mutual

theorem holds_fill : ∀ (v : JsonValue) {parent : Option Nat} {k : Nat},
    fill parent k v <+: cells.drop k → Holds (cellMemory cells) parent k v (range k (cellCount v))
  | .object es, parent, k, h => by
      rw [fill] at h
      have hcell := cellMemory_root h
      rw [← List.singleton_append] at h
      have hes := holds_fillEntries es (prefix_drop h rfl)
      have hholds := @Holds.object (cellMemory cells) k _ _ _ _ (by rw [hcell]; rfl) hes
        (not_mem_range k _)
      rw [hcell] at hholds
      rw [cellCount, Nat.add_comm, range_add]
      exact hholds
  | .array vs, parent, k, h => by
      rw [fill] at h
      have hcell := cellMemory_root h
      rw [← List.singleton_append] at h
      have hvs := holds_fillValues vs (prefix_drop h rfl)
      have hholds := @Holds.array (cellMemory cells) k _ _ _ _ (by rw [hcell]; rfl) hvs
        (not_mem_range k _)
      rw [hcell] at hholds
      rw [cellCount, Nat.add_comm, range_add]
      exact hholds
  | .integer n, parent, k, h => by
      have hcell := cellMemory_root h
      have hholds := @Holds.integer (cellMemory cells) k n (by rw [hcell]; rfl)
      rw [hcell] at hholds
      exact hholds
  | .double text, parent, k, h => by
      have hcell := cellMemory_root h
      have hholds := @Holds.double (cellMemory cells) k text (by rw [hcell]; rfl)
      rw [hcell] at hholds
      exact hholds
  | .string s, parent, k, h => by
      have hcell := cellMemory_root h
      have hholds := @Holds.string (cellMemory cells) k k s (by rw [hcell]; rfl)
      rw [hcell] at hholds
      exact hholds
  | .boolean b, parent, k, h => by
      have hcell := cellMemory_root h
      have hholds := @Holds.boolean (cellMemory cells) k b (by rw [hcell]; rfl)
      rw [hcell] at hholds
      exact hholds
  | .null, parent, k, h => by
      have hcell := cellMemory_root h
      have hholds := @Holds.null (cellMemory cells) k (by rw [hcell]; rfl)
      rw [hcell] at hholds
      exact hholds

theorem holds_fillEntries : ∀ (es : List (Bytes × JsonValue)) {a k : Nat},
    fillEntries a k es <+: cells.drop k →
    HoldsEntries (cellMemory cells) a
      ((entryCells k es).map fun e => ⟨e.1, a, e.2⟩) es (range k (cellCountEntries es))
  | [], a, k, _ => .nil
  | (name, v) :: es, a, k, h => by
      rw [fillEntries] at h
      have hv := holds_fill v ((List.prefix_append _ _).trans h)
      have hes := holds_fillEntries es (prefix_drop h (length_fillEntry a k (name, v)))
      rw [cellCountEntries, range_add]
      exact .cons hv hes (range_disjoint ..)

theorem holds_fillValues : ∀ (vs : List JsonValue) {a k : Nat},
    fillValues a k vs <+: cells.drop k →
    HoldsValues (cellMemory cells) a (valueCells k vs) vs (range k (cellCountValues vs))
  | [], a, k, _ => .nil
  | v :: vs, a, k, h => by
      rw [fillValues] at h
      have hv := holds_fill v ((List.prefix_append _ _).trans h)
      have hvs := holds_fillValues vs (prefix_drop h (length_fill (some a) k v))
      rw [cellCountValues, range_add]
      exact .cons hv hvs (range_disjoint ..)

end

end Memory

/-- The two passes of `json_parse_ex` together: a text that `jsonParse`
rejects the first pass rejects, and for every other the second pass
finishes, with no write outside of the room that the first pass has
measured and no room left over, and its values are a tree with the
value of the text. No string or container is taken to reach the limit
`UINT_MAX - 8` (`jsonParseLimited_eq`: one in a shorter text does not),
and a double is its literal. -/
theorem jsonParseEx_holds (text : Bytes) :
    (jsonParse text = none →
      Pass.run firstPass ⟨⟨[], none⟩, .seek false false⟩ (skipBom text) = none) ∧
    ∀ v, jsonParse text = some v → ∃ cells, jsonParseEx text = some cells ∧
      Holds (cellMemory cells) none 0 v (List.range cells.length) ∧
      ∀ c ∈ cells, c.payload.Full := by
  constructor
  · intro h
    rw [run_firstPass, h]
    rfl
  · intro v hv
    refine ⟨fill none 0 v, by rw [jsonParseEx_eq, hv]; rfl, ?_, full_fill none 0 v⟩
    rw [length_fill, List.range_eq_range']
    exact holds_fill v (List.prefix_refl _)

example : jsonParseEx (ascii "\x7b\"a\": [1, \"b\"]\x7d") =
    some [⟨none, .object 1 2 2 [] [(ascii "a", 1)]⟩, ⟨some 0, .array 2 [2, 3]⟩,
      ⟨some 1, .integer 1⟩, ⟨some 1, .string 1 (ascii "b")⟩] := by
  decide

end Pyoneer.Shared
