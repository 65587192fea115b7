/-
Pyoneer.Shared.JsonLimits — the lengths that `json_parse_ex` takes.

The lengths of strings and containers are `unsigned int`s in the source.
Before each byte of a string, and whenever a value has gone to a
container, the length so far is held against `UINT_MAX - 8`, and a
longer one ends the parse (`e_overflow`). `jsonParse` has no such tests.
`jsonParseLimited` is the same loop with them, and
`jsonParseLimited_eq_some_iff` says what they come to: of the texts that
`jsonParse` accepts, exactly those remain whose value has no string, no
name and no container that is longer.

Two counters of the source have no tests: `num_digits` is an `int`, so
that a number with more than `INT_MAX` digits has no meaning in C, and
the lines are counted for the error texts only. Both are left unbounded.
-/
import Pyoneer.Shared.JsonFirstPass
import Pyoneer.Shared.JsonGrammar

namespace Pyoneer.Shared

/-! ## Short values -/

/-- `UINT_MAX - 8`. -/
def maxLength : Nat := 2 ^ 32 - 1 - 8

mutual

/-- No string, name or container in the value is longer than
`maxLength`. -/
def Short : JsonValue → Prop
  | .object es => es.length ≤ maxLength ∧ ShortEntries es
  | .array vs => vs.length ≤ maxLength ∧ ShortValues vs
  | .string s => s.length ≤ maxLength
  | .integer _ | .double _ | .boolean _ | .null => True

def ShortEntry : Bytes × JsonValue → Prop
  | (name, v) => name.length ≤ maxLength ∧ Short v

def ShortEntries : List (Bytes × JsonValue) → Prop
  | [] => True
  | e :: es => ShortEntry e ∧ ShortEntries es

def ShortValues : List JsonValue → Prop
  | [] => True
  | v :: vs => Short v ∧ ShortValues vs

end

theorem shortEntries_snoc (es : List (Bytes × JsonValue)) (name : Bytes) (v : JsonValue) :
    ShortEntries (es ++ [(name, v)]) ↔ ShortEntries es ∧ name.length ≤ maxLength ∧ Short v := by
  induction es with
  | nil => simp [ShortEntries, ShortEntry]
  | cons e es ih => rw [List.cons_append, ShortEntries, ShortEntries, ih, and_assoc]

theorem shortValues_snoc (vs : List JsonValue) (v : JsonValue) :
    ShortValues (vs ++ [v]) ↔ ShortValues vs ∧ Short v := by
  induction vs with
  | nil => simp [ShortValues]
  | cons w vs ih => rw [List.cons_append, ShortValues, ShortValues, ih, and_assoc]

/-- A number has no length. -/
theorem short_of_isNumber {v : JsonValue} (h : v.isNumber = true) : Short v := by
  cases v with
  | integer n => trivial
  | double text => trivial
  | object es => cases h
  | array vs => cases h
  | string s => cases h
  | boolean b => cases h
  | null => cases h

/-! ## The loop with the tests -/

/-- `u.array.length` or `u.object.length` of a container that is open. -/
def Frame.length : Frame → Nat
  | .array vs => vs.length
  | .object es _ => es.length

/-- The test of `string_length`, made at each byte of a string but those
of a `\u` escape. -/
def stringOverflows : ParsePc → Bool
  | .string _ acc | .escaped _ acc => maxLength < acc.length
  | _ => false

namespace Parser

/-- The test after `flag_next`, of the container that the value went to:
it is the innermost that is open. One that nothing went to is either new
or was tested before. -/
def limited (p : Parser) : Option Parser :=
  match p.stack with
  | [] => some p
  | f :: _ => if maxLength < f.length then none else some p

/-- One byte, not NUL. -/
def feedLimited (p : Parser) (b : UInt8) : Option Parser :=
  match p.pc with
  | .number n =>
    match n.step b with
    | .more n => some { p with pc := .number n }
    | .ends v => (next v p.stack).limited.bind fun q => (feedPlain q.stack q.pc b).bind limited
    | .fails => none
  | pc => if stringOverflows pc then none else (feedPlain p.stack pc b).bind limited

/-- The loop over the text. -/
def runLimited (p : Parser) : Bytes → Option JsonValue
  | [] => p.atEnd
  | b :: bs =>
    if b = 0 then p.atEnd
    else
      match p.feedLimited b with
      | some p => runLimited p bs
      | none => none

end Parser

/-- `json_parse_ex`, with its tests for an overflow. -/
def jsonParseLimited (text : Bytes) : Option JsonValue :=
  Parser.runLimited { stack := [], pc := .seek false false } (skipBom text)

/-! ## What a byte does -/

/-- The string that is open. -/
def ParsePc.length : ParsePc → Nat
  | .string _ acc | .escaped _ acc | .hex _ acc _ _ _ | .pair _ acc _ _ => acc.length
  | _ => 0

/-- The value that is known. -/
def ParsePc.Short : ParsePc → Prop
  | .literal _ v | .done v => Shared.Short v
  | _ => True

def ParsePc.isDone : ParsePc → Bool
  | .done _ => true
  | _ => false

/-- The open containers. The name in the innermost one counts unless
the next one is being read. -/
def ShortStack : Bool → List Frame → Prop
  | _, [] => True
  | _, .array vs :: rest => (vs.length ≤ maxLength ∧ ShortValues vs) ∧ ShortStack true rest
  | named, .object es name :: rest =>
    (es.length ≤ maxLength ∧ ShortEntries es ∧ (named = true → name.length ≤ maxLength)) ∧
      ShortStack true rest

namespace Parser

/-- What has been read is short, but for the string that is open. -/
def Short (p : Parser) : Prop := ShortStack (!naming p.pc) p.stack ∧ p.pc.Short

/-- The ways of the loop through a byte, outside of numbers. -/
inductive Advances : List Frame → ParsePc → Parser → Prop
  | stays {st : List Frame} {pc pc' : ParsePc} : pc.length ≤ pc'.length →
      (pc.Short ↔ pc'.Short) → naming pc = naming pc' → pc.isDone = pc'.isDone →
      Advances st pc ⟨st, pc'⟩
  | openArray {st : List Frame} {pc : ParsePc} {c k : Bool} : pc = .seek c k →
      Advances st pc ⟨.array [] :: st, .seek false false⟩
  | openObject {st : List Frame} {pc : ParsePc} {c k : Bool} : pc = .seek c k →
      Advances st pc ⟨.object [] [] :: st, .object false⟩
  | name {es : List (Bytes × JsonValue)} {old acc : Bytes} {rest : List Frame} :
      Advances (.object es old :: rest) (.string true acc)
        ⟨.object es acc :: rest, .seek false true⟩
  | string {st : List Frame} {acc : Bytes} :
      Advances st (.string false acc) (next (.string acc) st)
  | literal {st : List Frame} {text : Bytes} {v : JsonValue} :
      Advances st (.literal text v) (next v st)
  | closeArray {vs : List JsonValue} {rest : List Frame} {c k : Bool} :
      Advances (.array vs :: rest) (.seek c k) (next (.array vs) rest)
  | closeObject {es : List (Bytes × JsonValue)} {name : Bytes} {rest : List Frame} {c : Bool} :
      Advances (.object es name :: rest) (.object c) (next (.object es) rest)

variable {st : List Frame} {pc : ParsePc} {p q : Parser} {b : UInt8}

theorem openValue_advances {c k : Bool} (h : openValue st b = some q) :
    Advances st (.seek c k) q := by
  unfold openValue at h
  split_ifs at h
  · cases h; exact .openObject rfl
  · cases h; exact .openArray rfl
  · cases h; exact .stays le_rfl Iff.rfl rfl rfl
  · cases h; exact .stays le_rfl Iff.rfl rfl rfl
  · cases h; exact .stays le_rfl Iff.rfl rfl rfl
  · cases h; exact .stays le_rfl Iff.rfl rfl rfl
  · cases h; exact .stays le_rfl Iff.rfl rfl rfl
  · split at h
    · cases h; exact .stays le_rfl Iff.rfl rfl rfl
    · cases h

theorem feedSeek_advances {c k : Bool} (h : feedSeek st c k b = some q) :
    Advances st (.seek c k) q := by
  unfold feedSeek at h
  split_ifs at h
  · cases h; exact .stays le_rfl Iff.rfl rfl rfl
  · unfold Parser.closeArray at h
    split at h
    · cases h; exact .closeArray
    · cases h
  · cases h; exact .stays le_rfl Iff.rfl rfl rfl
  · cases h; exact .stays le_rfl Iff.rfl rfl rfl
  · exact openValue_advances h

theorem feedObject_advances {c : Bool} (h : feedObject st c b = some q) :
    Advances st (.object c) q := by
  unfold feedObject at h
  split_ifs at h
  · cases h; exact .stays le_rfl Iff.rfl rfl rfl
  · cases h; exact .stays le_rfl Iff.rfl rfl rfl
  · unfold Parser.closeObject at h
    split at h
    · cases h; exact .closeObject
    · cases h
  · cases h; exact .stays le_rfl Iff.rfl rfl rfl

/-- Bytes that are added to a string. -/
theorem advances_append {name : Bool} {acc bytes : Bytes} (hlen : pc.length = acc.length)
    (hshort : pc.Short) (hname : naming pc = name) (hdone : pc.isDone = false) :
    Advances st pc ⟨st, .string name (acc ++ bytes)⟩ := by
  refine .stays ?_ (iff_of_true hshort trivial) hname hdone
  rw [hlen, ParsePc.length, List.length_append]
  exact Nat.le_add_right ..

theorem feedHex_advances {name : Bool} {acc : Bytes} {u k : Nat} {first : Option Nat}
    (h : feedHex st name acc u k first b = some q) :
    Advances st (.hex name acc u k first) q := by
  unfold feedHex at h
  split at h
  · cases h
  · cases h; exact .stays le_rfl Iff.rfl rfl rfl
  · simp only at h
    split at h
    · cases h; exact advances_append rfl trivial rfl rfl
    · split_ifs at h
      · cases h; exact .stays le_rfl Iff.rfl rfl rfl
      · cases h; exact advances_append rfl trivial rfl rfl

theorem closeString_advances {name : Bool} {acc : Bytes} (h : closeString st name acc = some q) :
    Advances st (.string name acc) q := by
  unfold closeString at h
  cases name with
  | true =>
    simp only [if_true] at h
    split at h
    · cases h; exact .name
    · cases h
  | false =>
    cases h
    exact .string

theorem feedPlain_advances (h : feedPlain st pc b = some q) : Advances st pc q := by
  unfold feedPlain at h
  split at h
  · exact feedSeek_advances h
  · exact feedObject_advances h
  · split_ifs at h
    · cases h; exact .stays le_rfl Iff.rfl rfl rfl
    · exact closeString_advances h
    · cases h; exact advances_append rfl trivial rfl rfl
  · split_ifs at h
    · cases h; exact .stays le_rfl Iff.rfl rfl rfl
    · cases h; exact advances_append rfl trivial rfl rfl
  · exact feedHex_advances h
  · split_ifs at h
    cases h; exact .stays le_rfl Iff.rfl rfl rfl
  · split_ifs at h
    cases h; exact .stays le_rfl Iff.rfl rfl rfl
  · cases h
  · split_ifs at h
    cases h; exact .literal
  · split_ifs at h
    cases h; exact .stays le_rfl Iff.rfl rfl rfl
  · cases h
  · split_ifs at h
    cases h; exact .stays le_rfl Iff.rfl rfl rfl

/-! ## Short states -/

theorem limited_eq_some (h : p.limited = some q) : q = p := by
  unfold limited at h
  split at h
  · exact (Option.some.inj h).symm
  · split_ifs at h
    exact (Option.some.inj h).symm

/-- A short state passes the test. -/
theorem Short.limited (h : p.Short) : p.limited = some p := by
  obtain ⟨_ | ⟨_ | _, rest⟩, pc⟩ := p
  · rfl
  · exact if_neg (Nat.not_lt.mpr h.1.1.1)
  · exact if_neg (Nat.not_lt.mpr h.1.1.1)

theorem limited_cons {f : Frame} {rest : List Frame} :
    limited ⟨f :: rest, pc⟩ = some ⟨f :: rest, pc⟩ ↔ f.length ≤ maxLength := by
  simp only [limited, ite_eq_right_iff, reduceCtorEq, imp_false, Nat.not_lt]

/-- A value goes to its container. -/
theorem short_next (v : JsonValue) (st : List Frame) :
    (next v st).Short ↔ Shared.Short v ∧ ShortStack true st ∧
      (next v st).limited = some (next v st) := by
  match st with
  | [] => simp [next, Short, limited, ShortStack, ParsePc.Short]
  | .array vs :: rest =>
    rw [next, limited_cons, Frame.length, List.length_append]
    constructor
    · rintro ⟨⟨⟨hlen, hvs⟩, hrest⟩, -⟩
      rw [List.length_append] at hlen
      obtain ⟨hvs, hv⟩ := (shortValues_snoc vs v).mp hvs
      exact ⟨hv, ⟨⟨by omega, hvs⟩, hrest⟩, hlen⟩
    · rintro ⟨hv, ⟨⟨-, hvs⟩, hrest⟩, hlen⟩
      rw [← List.length_append] at hlen
      exact ⟨⟨⟨hlen, (shortValues_snoc vs v).mpr ⟨hvs, hv⟩⟩, hrest⟩, trivial⟩
  | .object es name :: rest =>
    rw [next, limited_cons, Frame.length, List.length_append]
    constructor
    · rintro ⟨⟨⟨hlen, hes, -⟩, hrest⟩, -⟩
      rw [List.length_append] at hlen
      obtain ⟨hes, hname, hv⟩ := (shortEntries_snoc es name v).mp hes
      exact ⟨hv, ⟨⟨by omega, hes, fun _ => hname⟩, hrest⟩, hlen⟩
    · rintro ⟨hv, ⟨⟨-, hes, hname⟩, hrest⟩, hlen⟩
      rw [← List.length_append] at hlen
      refine ⟨⟨⟨hlen, (shortEntries_snoc es name v).mpr ⟨hes, hname rfl, hv⟩, ?_⟩, hrest⟩, trivial⟩
      exact fun hf => by cases hf

theorem length_le_of_not_overflows {name : Bool} {acc : Bytes}
    (h : stringOverflows (.string name acc) = false) : acc.length ≤ maxLength :=
  Nat.le_of_not_lt (of_decide_eq_false h)

/-- What was short stays short, if the tests are passed. -/
theorem Advances.short (h : Advances st pc q) (hp : Short ⟨st, pc⟩)
    (hover : stringOverflows pc = false) (hlim : q.limited = some q) : q.Short := by
  obtain ⟨hst, hpc⟩ := hp
  cases h with
  | stays _ hshort hname _ => exact ⟨hname ▸ hst, hshort.mp hpc⟩
  | openArray h => subst h; exact ⟨⟨⟨Nat.zero_le _, trivial⟩, hst⟩, trivial⟩
  | openObject h =>
    subst h
    exact ⟨⟨⟨Nat.zero_le _, trivial, fun _ => Nat.zero_le _⟩, hst⟩, trivial⟩
  | name => exact ⟨⟨⟨hst.1.1, hst.1.2.1, fun _ => length_le_of_not_overflows hover⟩, hst.2⟩, trivial⟩
  | string => exact (short_next _ _).mpr ⟨length_le_of_not_overflows hover, hst, hlim⟩
  | literal => exact (short_next _ _).mpr ⟨hpc, hst, hlim⟩
  | closeArray => exact (short_next _ _).mpr ⟨hst.1, hst.2, hlim⟩
  | closeObject => exact (short_next _ _).mpr ⟨⟨hst.1.1, hst.1.2.1⟩, hst.2, hlim⟩

/-- What is short was short before. -/
theorem Advances.back (h : Advances st pc q) (hq : q.Short) (hlen : q.pc.length ≤ maxLength) :
    Short ⟨st, pc⟩ ∧ pc.length ≤ maxLength := by
  cases h with
  | stays hle hshort hname _ => exact ⟨⟨hname ▸ hq.1, hshort.mpr hq.2⟩, le_trans hle hlen⟩
  | openArray h => subst h; exact ⟨⟨hq.1.2, trivial⟩, Nat.zero_le _⟩
  | openObject h => subst h; exact ⟨⟨hq.1.2, trivial⟩, Nat.zero_le _⟩
  | name =>
    obtain ⟨⟨hes, hshort, hname⟩, hrest⟩ := hq.1
    exact ⟨⟨⟨⟨hes, hshort, fun hf => by cases hf⟩, hrest⟩, trivial⟩, hname rfl⟩
  | string =>
    obtain ⟨hv, hst, -⟩ := (short_next _ _).mp hq
    exact ⟨⟨hst, trivial⟩, hv⟩
  | literal =>
    obtain ⟨hv, hst, -⟩ := (short_next _ _).mp hq
    exact ⟨⟨hst, hv⟩, Nat.zero_le _⟩
  | closeArray =>
    obtain ⟨hv, hst, -⟩ := (short_next _ _).mp hq
    exact ⟨⟨⟨hv, hst⟩, trivial⟩, Nat.zero_le _⟩
  | closeObject =>
    obtain ⟨hv, hst, -⟩ := (short_next _ _).mp hq
    exact ⟨⟨⟨⟨hv.1, hv.2, fun hf => by cases hf⟩, hst⟩, trivial⟩, Nat.zero_le _⟩

theorem rooted_next (v : JsonValue) (st : List Frame) (h : (next v st).pc.isDone = true) :
    (next v st).stack = [] := by
  match st with
  | [] => rfl
  | .array vs :: rest => cases h
  | .object es name :: rest => cases h

/-- No container is open after the root value. -/
theorem Advances.rooted (h : Advances st pc q) (hst : pc.isDone = true → st = [])
    (hq : q.pc.isDone = true) : q.stack = [] := by
  cases h with
  | stays _ _ _ hdone => exact hst (hdone.trans hq)
  | openArray _ => cases hq
  | openObject _ => cases hq
  | name => cases hq
  | string => exact rooted_next _ _ hq
  | literal => exact rooted_next _ _ hq
  | closeArray => exact rooted_next _ _ hq
  | closeObject => exact rooted_next _ _ hq

/-! ## The loop -/

/-- A number, or a place where the byte is looked at once. -/
theorem number_or_plain (st : List Frame) (pc : ParsePc) (b : UInt8) :
    (∃ n, pc = .number n) ∨ feed ⟨st, pc⟩ b = feedPlain st pc b ∧ feedLimited ⟨st, pc⟩ b =
      if stringOverflows pc then none else (feedPlain st pc b).bind limited := by
  cases pc with
  | number n => exact .inl ⟨n, rfl⟩
  | seek c k => exact .inr ⟨rfl, rfl⟩
  | object c => exact .inr ⟨rfl, rfl⟩
  | string name acc => exact .inr ⟨rfl, rfl⟩
  | escaped name acc => exact .inr ⟨rfl, rfl⟩
  | hex name acc u k first => exact .inr ⟨rfl, rfl⟩
  | pair name acc u slash => exact .inr ⟨rfl, rfl⟩
  | literal text v => exact .inr ⟨rfl, rfl⟩
  | done v => exact .inr ⟨rfl, rfl⟩

theorem stringOverflows_next (v : JsonValue) (st : List Frame) :
    stringOverflows (next v st).pc = false := by
  match st with
  | [] => rfl
  | .array vs :: rest => rfl
  | .object es name :: rest => rfl

theorem feed_rooted (h : p.feed b = some q) (hp : p.pc.isDone = true → p.stack = [])
    (hq : q.pc.isDone = true) : q.stack = [] := by
  obtain ⟨st, pc⟩ := p
  rcases number_or_plain st pc b with ⟨n, rfl⟩ | ⟨hfeed, -⟩
  · simp only [feed] at h
    cases hstep : n.step b with
    | more n =>
      simp only [hstep] at h
      obtain rfl := Option.some.inj h
      cases hq
    | fails =>
      simp only [hstep] at h
      cases h
    | ends v =>
      simp only [hstep] at h
      exact (feedPlain_advances h).rooted (rooted_next v st) hq
  · rw [hfeed] at h
    exact (feedPlain_advances h).rooted hp hq

/-- A byte that passes the tests does what it does without them. -/
theorem feedLimited_spec (h : p.feedLimited b = some q) :
    p.feed b = some q ∧ (p.Short → q.Short) := by
  obtain ⟨st, pc⟩ := p
  -- what `feedPlain` makes of a short state, once the tests are passed
  have hplain : ∀ {st pc}, stringOverflows pc = false →
      (feedPlain st pc b).bind limited = some q →
      feedPlain st pc b = some q ∧ (Short ⟨st, pc⟩ → q.Short) := by
    intro st pc hover hbind
    obtain ⟨r, hfeed, hlim⟩ := Option.bind_eq_some_iff.mp hbind
    obtain rfl := limited_eq_some hlim
    exact ⟨hfeed, fun hp => (feedPlain_advances hfeed).short hp hover hlim⟩
  rcases number_or_plain st pc b with ⟨n, rfl⟩ | ⟨hfeed, hlimited⟩
  · simp only [feedLimited, feed] at h ⊢
    cases hstep : n.step b with
    | more n =>
      simp only [hstep] at h ⊢
      exact ⟨h, fun hp => Option.some.inj h ▸ ⟨hp.1, trivial⟩⟩
    | fails =>
      simp only [hstep] at h
      cases h
    | ends v =>
      simp only [hstep] at h ⊢
      obtain ⟨r, hlim, hbind⟩ := Option.bind_eq_some_iff.mp h
      obtain rfl := limited_eq_some hlim
      obtain ⟨hfeed, hshort⟩ := hplain (stringOverflows_next v st) hbind
      refine ⟨hfeed, fun hp => hshort ((short_next v st).mpr ⟨?_, hp.1, hlim⟩)⟩
      exact short_of_isNumber (Number.step_ends hstep)
  · rw [hlimited] at h
    rw [hfeed]
    split_ifs at h with hover
    exact hplain (Bool.eq_false_of_not_eq_true hover) h

/-- A byte that leads to a short state passes the tests. -/
theorem feed_back (h : p.feed b = some q) (hq : q.Short) (hlen : q.pc.length ≤ maxLength) :
    p.Short ∧ p.pc.length ≤ maxLength ∧ p.feedLimited b = some q := by
  obtain ⟨st, pc⟩ := p
  have hplain : ∀ {st pc}, feedPlain st pc b = some q →
      (Short ⟨st, pc⟩ ∧ pc.length ≤ maxLength) ∧ (feedPlain st pc b).bind limited = some q := by
    intro st pc hfeed
    refine ⟨(feedPlain_advances hfeed).back hq hlen, ?_⟩
    rw [hfeed, Option.bind_some, hq.limited]
  rcases number_or_plain st pc b with ⟨n, rfl⟩ | ⟨hfeed, hlimited⟩
  · simp only [feedLimited, feed] at h ⊢
    cases hstep : n.step b with
    | more n =>
      simp only [hstep] at h ⊢
      obtain rfl := Option.some.inj h
      exact ⟨⟨hq.1, trivial⟩, Nat.zero_le _, rfl⟩
    | fails =>
      simp only [hstep] at h
      cases h
    | ends v =>
      simp only [hstep] at h ⊢
      obtain ⟨⟨hshort, -⟩, hbind⟩ := hplain h
      obtain ⟨-, hst, hlim⟩ := (short_next v st).mp hshort
      refine ⟨⟨hst, trivial⟩, Nat.zero_le _, ?_⟩
      rw [hlim, Option.bind_some, hbind]
  · rw [hfeed] at h
    obtain ⟨⟨hshort, hle⟩, hbind⟩ := hplain h
    refine ⟨hshort, hle, ?_⟩
    rw [hlimited, hbind, if_neg]
    cases pc with
    | string name acc => exact fun hover => Nat.not_lt.mpr hle (of_decide_eq_true hover)
    | escaped name acc => exact fun hover => Nat.not_lt.mpr hle (of_decide_eq_true hover)
    | _ => exact Bool.false_ne_true

/-- The end of the text, at a place where it may end. -/
theorem atEnd_cases {v : JsonValue} (h : p.atEnd = some v) :
    p.pc = .done v ∨ (∃ n, p.pc = .number n) ∧ p.stack = [] ∧ v.isNumber = true := by
  obtain ⟨st, pc⟩ := p
  unfold atEnd at h
  split at h
  · rename_i hpc
    exact .inl (hpc.trans (congrArg ParsePc.done (Option.some.inj h)))
  · rename_i n hpc hst
    split at h
    · rename_i hstep
      exact .inr ⟨⟨n, hpc⟩, hst, Option.some.inj h ▸ Number.step_ends hstep⟩
    · cases h
  · cases h

/-- A run that passes the tests is one without them. -/
theorem runLimited_spec {text : Bytes} {v : JsonValue} (h : p.runLimited text = some v)
    (hp : p.Short) : p.run text = some v ∧ Shared.Short v := by
  have hend : ∀ {p : Parser}, p.atEnd = some v → p.Short → Shared.Short v := by
    intro p h hp
    rcases atEnd_cases h with hpc | ⟨_, _, hv⟩
    · have hshort := hp.2
      rwa [hpc] at hshort
    · exact short_of_isNumber hv
  induction text generalizing p with
  | nil => exact ⟨h, hend h hp⟩
  | cons b text ih =>
    rw [runLimited] at h
    rw [run]
    split_ifs at h ⊢ with hb
    · exact ⟨h, hend h hp⟩
    · split at h
      · rename_i q hq
        obtain ⟨hfeed, hshort⟩ := feedLimited_spec hq
        rw [hfeed]
        exact ih h (hshort hp)
      · cases h

/-- A run to a short value passes the tests. -/
theorem run_back {text : Bytes} {v : JsonValue} (h : p.run text = some v)
    (hv : Shared.Short v) (hroot : p.pc.isDone = true → p.stack = []) :
    p.Short ∧ p.pc.length ≤ maxLength ∧ p.runLimited text = some v := by
  have hend : ∀ {p : Parser}, p.atEnd = some v → (p.pc.isDone = true → p.stack = []) →
      p.Short ∧ p.pc.length ≤ maxLength := by
    rintro ⟨st, pc⟩ h hroot
    rcases atEnd_cases h with rfl | ⟨⟨n, rfl⟩, rfl, -⟩
    · obtain rfl := hroot rfl
      exact ⟨⟨trivial, hv⟩, Nat.zero_le _⟩
    · exact ⟨⟨trivial, trivial⟩, Nat.zero_le _⟩
  induction text generalizing p with
  | nil =>
    obtain ⟨hshort, hlen⟩ := hend h hroot
    exact ⟨hshort, hlen, h⟩
  | cons b text ih =>
    rw [run] at h
    rw [runLimited]
    split_ifs at h ⊢ with hb
    · obtain ⟨hshort, hlen⟩ := hend h hroot
      exact ⟨hshort, hlen, h⟩
    · split at h
      · rename_i q hq
        obtain ⟨hshort, hlen, hrun⟩ := ih h (feed_rooted hq hroot)
        obtain ⟨hshort', hlen', hfeed⟩ := feed_back hq hshort hlen
        rw [hfeed]
        exact ⟨hshort', hlen', hrun⟩
      · cases h

end Parser

theorem jsonParseLimited_eq_some_iff {text : Bytes} {v : JsonValue} :
    jsonParseLimited text = some v ↔ jsonParse text = some v ∧ Short v := by
  constructor
  · intro h
    exact Parser.runLimited_spec h ⟨trivial, trivial⟩
  · rintro ⟨h, hv⟩
    exact (Parser.run_back h hv fun hdone => by cases hdone).2.2

open Grammar in
/-- With its tests `json_parse_ex` decides the grammar with short
values, and the grammar gives a text one value at most. -/
theorem jsonParseLimited_decides (text : Bytes) :
    (∀ v, jsonParseLimited text = some v ↔ Text (skipBom text) v ∧ Short v) ∧
    (jsonParseLimited text = none ↔ ¬ ∃ v, Text (skipBom text) v ∧ Short v) ∧
    ∀ v w, Text (skipBom text) v → Text (skipBom text) w → v = w := by
  obtain ⟨hsome, -, hunique⟩ := jsonParse_decides text
  have hlimited : ∀ v, jsonParseLimited text = some v ↔ Text (skipBom text) v ∧ Short v := by
    intro v
    rw [jsonParseLimited_eq_some_iff, hsome]
  refine ⟨hlimited, ?_, hunique⟩
  rw [Option.eq_none_iff_forall_ne_some, not_exists]
  exact forall_congr' fun v => not_congr (hlimited v)

/-! ## Short texts -/

section Lengths

open Grammar

theorem length_ws {text rest : Bytes} (h : Ws text rest) : rest.length ≤ text.length := by
  induction h with
  | nil => exact le_rfl
  | cons _ _ ih => exact Nat.le_succ_of_le ih

theorem length_encodeUchar (u : Nat) : (encodeUchar u).length ≤ 4 := by
  unfold encodeUchar
  split_ifs <;> simp

theorem length_chars {text s rest : Bytes} (h : Chars text s rest) :
    s.length + rest.length + 1 ≤ text.length := by
  induction h with
  | close rest => simp
  | byte _ _ _ _ ih =>
    simp only [List.length_cons]
    omega
  | escape _ _ _ ih =>
    simp only [List.length_cons]
    omega
  | @unicode a b c d u text s rest _ _ _ ih =>
    have henc := length_encodeUchar u
    simp only [List.length_cons, List.length_append]
    omega
  | @pair a b c d a' b' c' d' u u' text s rest _ _ _ _ ih =>
    have henc := length_encodeUchar (pairUchar u u')
    simp only [List.length_cons, List.length_append]
    omega

theorem short_numeral {t : Bytes} {v : JsonValue} (h : Numeral t v) : Short v := by
  cases h with
  | plain h => cases h <;> trivial
  | exponent => trivial

mutual

/-- What a short text says is short. -/
theorem short_value {text rest : Bytes} {v : JsonValue} : Value text v rest →
    text.length ≤ maxLength → Short v ∧ rest.length ≤ text.length
  | .null rest, _ => ⟨trivial, by simp⟩
  | .true rest, _ => ⟨trivial, by simp⟩
  | .false rest, _ => ⟨trivial, by simp⟩
  | .number rest h, _ => ⟨short_numeral h, by simp⟩
  | .string h, hle => by
      have hlen := length_chars h
      rw [List.length_cons] at hle ⊢
      exact ⟨by show List.length _ ≤ _; omega, by omega⟩
  | .array h, hle => by
      rw [List.length_cons] at hle ⊢
      obtain ⟨hvs, hlen⟩ := short_values h (by omega)
      exact ⟨⟨by omega, hvs⟩, by omega⟩
  | .object h, hle => by
      rw [List.length_cons] at hle ⊢
      obtain ⟨hes, hlen⟩ := short_entries h (by omega)
      exact ⟨⟨by omega, hes⟩, by omega⟩

theorem short_values {text rest : Bytes} {vs : List JsonValue} : Values text vs rest →
    text.length ≤ maxLength → ShortValues vs ∧ vs.length + rest.length ≤ text.length
  | .close hws, _ => by
      have hlen := length_ws hws
      rw [List.length_cons] at hlen
      exact ⟨trivial, by rw [List.length_nil]; omega⟩
  | .value hws hv hvs, hle => by
      have hlen := length_ws hws
      obtain ⟨hv', hlen'⟩ := short_value hv (by omega)
      obtain ⟨hvs', hlen''⟩ := short_moreValues hvs (by omega)
      exact ⟨⟨hv', hvs'⟩, by rw [List.length_cons]; omega⟩

theorem short_moreValues {text rest : Bytes} {vs : List JsonValue} : MoreValues text vs rest →
    text.length ≤ maxLength → ShortValues vs ∧ vs.length + 1 + rest.length ≤ text.length
  | .close hws, _ => by
      have hlen := length_ws hws
      rw [List.length_cons] at hlen
      exact ⟨trivial, by rw [List.length_nil]; omega⟩
  | .comma hws hvs, hle => by
      have hlen := length_ws hws
      rw [List.length_cons] at hlen
      obtain ⟨hvs', hlen'⟩ := short_values hvs (by omega)
      exact ⟨hvs', by omega⟩

theorem short_entries {text rest : Bytes} {es : List (Bytes × JsonValue)} :
    Entries text es rest → text.length ≤ maxLength →
    ShortEntries es ∧ es.length + rest.length ≤ text.length
  | .close hws, _ => by
      have hlen := length_ws hws
      rw [List.length_cons] at hlen
      exact ⟨trivial, by rw [List.length_nil]; omega⟩
  | .entry hws hname hcolon hws' hv hes, hle => by
      have hlen₁ := length_ws hws
      have hlen₂ := length_chars hname
      have hlen₃ := length_ws hcolon
      have hlen₄ := length_ws hws'
      rw [List.length_cons] at hlen₁ hlen₃
      obtain ⟨hv', hlen₅⟩ := short_value hv (by omega)
      obtain ⟨hes', hlen₆⟩ := short_moreEntries hes (by omega)
      exact ⟨⟨⟨by omega, hv'⟩, hes'⟩, by rw [List.length_cons]; omega⟩

theorem short_moreEntries {text rest : Bytes} {es : List (Bytes × JsonValue)} :
    MoreEntries text es rest → text.length ≤ maxLength →
    ShortEntries es ∧ es.length + 1 + rest.length ≤ text.length
  | .close hws, _ => by
      have hlen := length_ws hws
      rw [List.length_cons] at hlen
      exact ⟨trivial, by rw [List.length_nil]; omega⟩
  | .comma hws hes, hle => by
      have hlen := length_ws hws
      rw [List.length_cons] at hlen
      obtain ⟨hes', hlen'⟩ := short_entries hes (by omega)
      exact ⟨hes', by omega⟩

end

theorem length_skipBom (text : Bytes) : (skipBom text).length ≤ text.length := by
  unfold skipBom
  split
  · simp only [List.length_cons]
    omega
  · exact le_rfl

end Lengths

/-- In a text that is not longer than the limit, the tests change
nothing. The server and the client read 4096 bytes at most. -/
theorem jsonParseLimited_eq {text : Bytes} (h : text.length ≤ maxLength) :
    jsonParseLimited text = jsonParse text := by
  have hshort : ∀ v, jsonParse text = some v → Short v := by
    intro v hv
    obtain ⟨hws, hv, _, _⟩ := jsonParse_eq_some_iff.mp hv
    exact (short_value hv (le_trans (length_ws hws) (le_trans (length_skipBom text) h))).1
  ext v
  simp only [jsonParseLimited_eq_some_iff, and_iff_left_iff_imp]
  exact hshort v

end Pyoneer.Shared
