/-
Pyoneer.Lib.Walk — a walk over a tree in memory without a stack.

The nodes have addresses; a node knows its children and its parent, and
has a counter. The loop is at one node at a time. At a node it does its
work, and then, as long as the counter is short of the number of the
children, goes down to the child that the counter names, which the
counter then has passed. At the last visit it sets the counter to
`leave` of it and climbs to the parent; where there is none it is done.

`Spans parent a as es` says that the nodes at `as` are a tree with its
root at `a`, and that `es` is the list of the visits that a walk over it
makes, each with its node and the value of the counter. `Spans.walk` is
the rule: the walk makes these visits, it ends where it should, and it
leaves the counters of all other nodes alone.

Nothing here mentions a program.
-/
import Mathlib.Data.List.Basic
import Mathlib.Logic.Function.Iterate

namespace Pyoneer.Lib

variable {A σ : Type}

/-- Where the walk is, the counters, and what the visits change. -/
structure Walk (A σ : Type) where
  pos : Option A
  count : A → Nat
  data : σ

namespace Walk

section Step

variable [DecidableEq A] (children : A → List A) (parent : A → Option A) (leave : Nat → Nat)
  (visit : A → Nat → σ → σ)

/-- One visit. -/
def step (w : Walk A σ) : Walk A σ :=
  match w.pos with
  | none => w
  | some a =>
    let i := w.count a
    match (children a)[i]? with
    | some c =>
      { pos := some c, count := Function.update w.count a (i + 1), data := visit a i w.data }
    | none =>
      { pos := parent a, count := Function.update w.count a (leave i), data := visit a i w.data }

/-- So many visits. -/
def steps (n : Nat) (w : Walk A σ) : Walk A σ := (step children parent leave visit)^[n] w

theorem steps_add (m n : Nat) (w : Walk A σ) :
    steps children parent leave visit (m + n) w =
      steps children parent leave visit n (steps children parent leave visit m w) := by
  rw [steps, Nat.add_comm, Function.iterate_add_apply]
  rfl

/-- A walk that is over stays so. -/
theorem steps_done {w : Walk A σ} (h : w.pos = none) (n : Nat) :
    steps children parent leave visit n w = w :=
  Function.iterate_fixed (by simp only [step, h]) n

/-- A walk that is over after so many visits has the same end after
more. -/
theorem steps_of_le {w w' : Walk A σ} {m n : Nat} (h : steps children parent leave visit m w = w')
    (hdone : w'.pos = none) (hle : m ≤ n) : steps children parent leave visit n w = w' := by
  obtain ⟨k, rfl⟩ := Nat.exists_eq_add_of_le hle
  rw [steps_add, h, steps_done _ _ _ _ hdone]

end Step

/-! ## Trees in memory -/

mutual

/-- A tree at `a`, under `p`: its addresses and the visits of a walk. -/
inductive Spans (children : A → List A) (parent : A → Option A) :
    Option A → A → List A → List (A × Nat) → Prop
  | node {a : A} {as : List A} {es : List (A × Nat)} :
      SpansFrom children parent a 0 as es → a ∉ as →
      Spans children parent (parent a) a (a :: as) es

/-- The children of `a` from the `i`th on, and the visits from the one
that goes down to it. -/
inductive SpansFrom (children : A → List A) (parent : A → Option A) :
    A → Nat → List A → List (A × Nat) → Prop
  | last {a : A} {i : Nat} : (children a)[i]? = none →
      SpansFrom children parent a i [] [(a, i)]
  | child {a c : A} {i : Nat} {as bs : List A} {es fs : List (A × Nat)} :
      (children a)[i]? = some c → Spans children parent (some a) c as es →
      SpansFrom children parent a (i + 1) bs fs → as.Disjoint bs →
      SpansFrom children parent a i (as ++ bs) ((a, i) :: es ++ fs)

end

/-- Children of `a` that a walk goes down to, the `i`th and the ones after
it, and the visits from there on to the last of them. -/
inductive SpansSome (children : A → List A) (parent : A → Option A) (a : A) :
    Nat → List A → List A → List (A × Nat) → Prop
  | nil {i : Nat} : SpansSome children parent a i [] [] []
  | cons {c : A} {i : Nat} {cs as bs : List A} {es fs : List (A × Nat)} :
      Spans children parent (some a) c as es → SpansSome children parent a (i + 1) cs bs fs →
      as.Disjoint bs → SpansSome children parent a i (c :: cs) (as ++ bs) ((a, i) :: es ++ fs)

section Some

variable {children : A → List A} {parent : A → Option A} {a : A}

theorem SpansSome.append {i : Nat} {cs ds as bs : List A} {es fs : List (A × Nat)}
    (h : SpansSome children parent a i cs as es)
    (h' : SpansSome children parent a (i + cs.length) ds bs fs) (hdis : as.Disjoint bs) :
    SpansSome children parent a i (cs ++ ds) (as ++ bs) (es ++ fs) := by
  induction h with
  | nil => exact h'
  | @cons c i cs as as' es es' hc _ hdis' ih =>
    have hlast : as'.Disjoint bs := fun x hx => hdis (List.mem_append_right _ hx)
    have hrest := ih (by rw [Nat.add_right_comm]; exact h') hlast
    have hes : (a, i) :: es ++ es' ++ fs = (a, i) :: es ++ (es' ++ fs) := List.append_assoc ..
    rw [List.cons_append, List.append_assoc, hes]
    refine .cons hc hrest (List.disjoint_append_right.mpr ⟨hdis', ?_⟩)
    exact fun x hx => hdis (List.mem_append_left _ hx)

/-- One more child. -/
theorem SpansSome.snoc {c : A} {i : Nat} {cs as bs : List A} {es fs : List (A × Nat)}
    (h : SpansSome children parent a i cs as es) (hc : Spans children parent (some a) c bs fs)
    (hdis : as.Disjoint bs) : SpansSome children parent a i (cs ++ [c]) (as ++ bs)
      (es ++ ((a, i + cs.length) :: fs)) := by
  have hone : SpansSome children parent a (i + cs.length) [c] (bs ++ [])
      ((a, i + cs.length) :: fs ++ []) := .cons hc .nil (List.disjoint_nil_right bs)
  rw [bs.append_nil, List.append_nil] at hone
  exact h.append hone hdis

/-- All the children that are left. -/
theorem SpansSome.last {i : Nat} {cs as : List A} {es : List (A × Nat)}
    (h : SpansSome children parent a i cs as es) (hcs : (children a).drop i = cs) :
    SpansFrom children parent a i as (es ++ [(a, i + cs.length)]) := by
  induction h with
  | nil => exact .last (List.getElem?_eq_none (List.drop_eq_nil_iff.mp hcs))
  | @cons c i cs as bs es fs hc _ hdis ih =>
    have hget : (children a)[i]? = some c := by
      rw [← List.head?_drop, hcs, List.head?_cons]
    have hrest := ih (by rw [← List.tail_drop, hcs, List.tail_cons])
    rw [List.append_assoc, List.length_cons, Nat.add_comm cs.length, ← Nat.add_assoc]
    exact .child hget hc hrest hdis

end Some

section Reparent

variable {children : A → List A} {parent parent' : A → Option A}

mutual

/-- A tree depends on the parents of its own nodes only. -/
theorem Spans.reparent {p : Option A} {a : A} {as : List A} {es : List (A × Nat)}
    (h : ∀ b ∈ as, parent' b = parent b) :
    Spans children parent p a as es → Spans children parent' p a as es
  | @Spans.node _ _ _ _ as _ hfrom ha => by
      rw [← h a (List.mem_cons_self ..)]
      exact .node (SpansFrom.reparent (fun b hb => h b (List.mem_cons_of_mem _ hb)) hfrom) ha

theorem SpansFrom.reparent {a : A} {i : Nat} {as : List A} {es : List (A × Nat)}
    (h : ∀ b ∈ as, parent' b = parent b) :
    SpansFrom children parent a i as es → SpansFrom children parent' a i as es
  | .last hnone => .last hnone
  | .child hc hchild hrest hdis =>
      .child hc (Spans.reparent (fun b hb => h b (List.mem_append_left _ hb)) hchild)
        (SpansFrom.reparent (fun b hb => h b (List.mem_append_right _ hb)) hrest) hdis

end

/-- A tree that is cut off from its parent. -/
theorem Spans.detach [DecidableEq A] {p : Option A} {a : A} {as : List A} {es : List (A × Nat)} :
    Spans children parent p a as es →
    Spans children (Function.update parent a none) none a as es
  | @Spans.node _ _ _ _ as _ hfrom ha => by
      have hself : Function.update parent a none a = none := Function.update_self ..
      have hrest : ∀ b ∈ as, Function.update parent a none b = parent b := by
        intro b hb
        have hba : b ≠ a := fun hba => ha (hba ▸ hb)
        exact Function.update_of_ne hba ..
      have hnode := Spans.node (SpansFrom.reparent hrest hfrom) ha
      rwa [hself] at hnode

end Reparent

/-- What the visits make of the data. -/
def visitAll (visit : A → Nat → σ → σ) (es : List (A × Nat)) (d : σ) : σ :=
  es.foldl (fun d e => visit e.1 e.2 d) d

@[simp] theorem visitAll_cons (visit : A → Nat → σ → σ) (e : A × Nat) (es : List (A × Nat))
    (d : σ) : visitAll visit (e :: es) d = visitAll visit es (visit e.1 e.2 d) := rfl

@[simp] theorem visitAll_nil (visit : A → Nat → σ → σ) (d : σ) : visitAll visit [] d = d := rfl

theorem visitAll_append (visit : A → Nat → σ → σ) (es fs : List (A × Nat)) (d : σ) :
    visitAll visit (es ++ fs) d = visitAll visit fs (visitAll visit es d) :=
  List.foldl_append

section Rule

variable [DecidableEq A] {children : A → List A} {parent : A → Option A} {leave : Nat → Nat}
  {visit : A → Nat → σ → σ}

/-- The counters after a walk over the nodes `as`. -/
structure Counted (children : A → List A) (leave : Nat → Nat) (as : List A)
    (count count' : A → Nat) : Prop where
  outside : ∀ b, b ∉ as → count' b = count b
  inside : ∀ b ∈ as, count' b = leave (children b).length

mutual

/-- A walk over a tree whose counters are zero. -/
theorem Spans.walk {p : Option A} {a : A} {as : List A} {es : List (A × Nat)} {count : A → Nat}
    (d : σ) (h0 : ∀ b ∈ as, count b = 0) : Spans children parent p a as es →
    ∃ count', steps children parent leave visit es.length ⟨some a, count, d⟩ =
      ⟨p, count', visitAll visit es d⟩ ∧ Counted children leave as count count'
  | @Spans.node _ _ _ _ as _ h ha => by
      obtain ⟨count', hrun, hout, hin, hlast⟩ := SpansFrom.walk d (h0 a (List.mem_cons_self ..))
        (fun b hb => h0 b (List.mem_cons_of_mem _ hb)) ha (Nat.zero_le _) h
      refine ⟨count', hrun, fun b hb => ?_, fun b hb => ?_⟩
      · obtain ⟨hba, hbs⟩ := not_or.mp (fun h => hb (List.mem_cons.mpr h))
        exact hout b hbs hba
      · rcases List.mem_cons.mp hb with rfl | hb
        · exact hlast
        · exact hin b hb

/-- A walk that has come to the `i`th child of `a`. -/
theorem SpansFrom.walk {a : A} {i : Nat} {as : List A} {es : List (A × Nat)} {count : A → Nat}
    (d : σ) (hi : count a = i) (h0 : ∀ b ∈ as, count b = 0) (ha : a ∉ as)
    (hle : i ≤ (children a).length) : SpansFrom children parent a i as es →
    ∃ count', steps children parent leave visit es.length ⟨some a, count, d⟩ =
      ⟨parent a, count', visitAll visit es d⟩ ∧ (∀ b, b ∉ as → b ≠ a → count' b = count b) ∧
      (∀ b ∈ as, count' b = leave (children b).length) ∧
      count' a = leave (children a).length
  | .last hnone => by
      have hlen : i = (children a).length := Nat.le_antisymm hle (List.getElem?_eq_none_iff.mp hnone)
      refine ⟨Function.update count a (leave i), ?_, fun b _ hb => ?_, fun b hb => ?_, ?_⟩
      · simp only [List.length_singleton, steps, Function.iterate_one, step, hi, hnone,
          visitAll_cons, visitAll_nil]
      · exact Function.update_of_ne hb ..
      · cases hb
      · rw [Function.update_self, hlen]
  | @SpansFrom.child _ _ _ _ c _ as bs es fs hc hchild hrest hdis => by
      have hlt : i < (children a).length := (List.getElem?_eq_some_iff.mp hc).1
      have hne : ∀ b ∈ as ++ bs, b ≠ a := fun b hb hba => ha (hba ▸ hb)
      -- down to the child
      have hdown : ∀ n, steps children parent leave visit (1 + n) ⟨some a, count, d⟩ =
          steps children parent leave visit n
            ⟨some c, Function.update count a (i + 1), visit a i d⟩ := by
        intro n
        rw [steps_add]
        simp only [steps, Function.iterate_one, step, hi, hc]
      -- over the child, and back
      have h1 : ∀ b ∈ as, Function.update count a (i + 1) b = 0 := by
        intro b hb
        rw [Function.update_of_ne (hne b (List.mem_append_left _ hb))]
        exact h0 b (List.mem_append_left _ hb)
      obtain ⟨count₁, hrun₁, hout₁, hin₁⟩ := Spans.walk (visit a i d) h1 hchild
      have haas : a ∉ as := fun h => ha (List.mem_append_left _ h)
      have habs : a ∉ bs := fun h => ha (List.mem_append_right _ h)
      -- over the children after it
      have h2 : ∀ b ∈ bs, count₁ b = 0 := by
        intro b hb
        rw [hout₁ b (fun h => hdis h hb),
          Function.update_of_ne (hne b (List.mem_append_right _ hb))]
        exact h0 b (List.mem_append_right _ hb)
      obtain ⟨count₂, hrun₂, hout₂, hin₂, hlast₂⟩ := SpansFrom.walk
        (visitAll visit es (visit a i d)) (by rw [hout₁ a haas, Function.update_self]) h2 habs
        hlt hrest
      refine ⟨count₂, ?_, fun b hb hba => ?_, fun b hb => ?_, hlast₂⟩
      · have hlen : ((a, i) :: es ++ fs).length = 1 + (es.length + fs.length) := by
          simp only [List.cons_append, List.length_cons, List.length_append]
          omega
        rw [hlen, hdown, steps_add, hrun₁, hrun₂, List.cons_append, visitAll_cons, visitAll_append]
      · rw [hout₂ b (fun h => hb (List.mem_append_right _ h)) hba,
          hout₁ b (fun h => hb (List.mem_append_left _ h)), Function.update_of_ne hba]
      · rcases List.mem_append.mp hb with hb' | hb'
        · rw [hout₂ b (fun h => hdis hb' h) (hne b hb), hin₁ b hb']
        · exact hin₂ b hb'

end

/-- A walk that clears the counters leaves them as they were. -/
theorem Spans.walk_clear {p : Option A} {a : A} {as : List A} {es : List (A × Nat)}
    {count : A → Nat} (h : Spans children parent p a as es) (visit : A → Nat → σ → σ) (d : σ)
    (h0 : ∀ b ∈ as, count b = 0) :
    steps children parent (fun _ => 0) visit es.length ⟨some a, count, d⟩ =
      ⟨p, count, visitAll visit es d⟩ := by
  obtain ⟨count', hrun, hout, hin⟩ : ∃ count',
      steps children parent (fun _ => 0) visit es.length ⟨some a, count, d⟩ =
        ⟨p, count', visitAll visit es d⟩ ∧ Counted children (fun _ => 0) as count count' :=
    h.walk d h0
  have hcount : count' = count := by
    funext b
    by_cases hb : b ∈ as
    · rw [hin b hb, h0 b hb]
    · exact hout b hb
  rw [hrun, hcount]

end Rule

end Walk

end Pyoneer.Lib
