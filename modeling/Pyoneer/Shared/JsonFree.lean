/-
Pyoneer.Shared.JsonFree — `json_builder_free` of `shared/json-builder.c`
and `json_value_free_ex` of `shared/json.c`.

Both go over the tree without a stack and take it apart on the way: the
`length` of a container counts down, its last child is visited next, and
a value that has no children left is freed, with its block of children
or its characters. `json_builder_free` also frees the names of a builder
value one by one; those of a parser value are in the block of its
entries.

In terms of `Lib/Walk` the counter is the number of the children that
are gone, and the children come in reverse. A block that is freed
without being allocated, and a value that is looked at after it has been
freed, are `none`.
-/
import Pyoneer.Lib.Heap
import Pyoneer.Shared.JsonMemory

namespace Pyoneer.Shared

open Lib

/-- What a block of the JSON library was asked for. -/
inductive JsonBlock where
  /-- A `json_value`. -/
  | value
  /-- `u.array.values` or `u.object.values`. -/
  | values
  /-- The characters of a string or of a name. -/
  | chars
  deriving DecidableEq, Repr

abbrev JsonHeap := Heap JsonBlock

/-! ## What a tree owns -/

/-- The blocks of the names, where they have one each. -/
def entryBlocks (builder : Bool) (entries : List JsonEntry) : Multiset (Block JsonBlock) :=
  if builder then (entries.map fun e => Heap.share .chars (some e.nameAt)).sum else 0

/-- The names that a value owns one by one. -/
def nameBlocks (c : JsonCell) : Multiset (Block JsonBlock) :=
  match c.payload with
  | .object _ entries => entryBlocks c.isBuilderValue entries
  | _ => 0

/-- The block that a value points to. -/
def dataBlocks (c : JsonCell) : Multiset (Block JsonBlock) :=
  match c.payload with
  | .object values _ | .array values _ => Heap.share .values values
  | .string ptr _ => Heap.share .chars (some ptr)
  | _ => 0

def cellBlocks (mem : JsonMemory) (a : Nat) : Multiset (Block JsonBlock) :=
  nameBlocks (mem a) + (dataBlocks (mem a) + Heap.share .value (some a))

/-- The blocks of the values at `as`. -/
def treeBlocks (mem : JsonMemory) (as : List Nat) : Multiset (Block JsonBlock) :=
  (as.map (cellBlocks mem)).sum

/-- The names of the values at `as`. -/
def treeNames (mem : JsonMemory) (as : List Nat) : Multiset (Block JsonBlock) :=
  (as.map fun a => nameBlocks (mem a)).sum

/-! ## The loops -/

/-- `free`, where the block has to be allocated. -/
def release (kind : JsonBlock) (addr : Option Nat) (heap : JsonHeap) : Option JsonHeap :=
  match addr with
  | none => some heap
  | some a => if ⟨kind, a⟩ ∈ heap.live then some (heap.free kind a) else none

/-- The body of the loop of `json_builder_free`, or of
`json_value_free_ex` if `names` is false. -/
def freeVisit (names : Bool) (mem : JsonMemory) (a i : Nat) (heap : Option JsonHeap) :
    Option JsonHeap :=
  heap.bind fun heap =>
    if ⟨.value, a⟩ ∈ heap.live then
      match (mem a).payload with
      | .array values elements =>
        if i < elements.length then some heap
        else (release .values values heap).bind (release .value (some a))
      | .object values entries =>
        if i < entries.length then
          if names && (mem a).isBuilderValue then
            release .chars (entries[entries.length - 1 - i]?.map JsonEntry.nameAt) heap
          else some heap
        else (release .values values heap).bind (release .value (some a))
      | .string ptr _ => (release .chars (some ptr) heap).bind (release .value (some a))
      | _ => release .value (some a) heap
    else none

/-- The children, from the last to the first. -/
def JsonMemory.descending (mem : JsonMemory) (a : Nat) : List Nat := (mem.children a).reverse

/-- The loop, for as many visits as `fuel` says. -/
def freeLoop (names : Bool) (mem : JsonMemory) (a : Nat) (heap : JsonHeap) (fuel : Nat) :
    Option JsonHeap :=
  let w := Walk.steps mem.descending (Function.update mem.parent a none) id
    (freeVisit names mem) fuel ⟨some a, fun _ => 0, some heap⟩
  if w.pos = none then w.data else none

/-- `json_builder_free`. -/
def jsonBuilderFree (mem : JsonMemory) (a : Nat) (heap : JsonHeap) (fuel : Nat) :
    Option JsonHeap :=
  freeLoop true mem a heap fuel

/-- `json_value_free_ex`. -/
def jsonValueFreeEx (mem : JsonMemory) (a : Nat) (heap : JsonHeap) (fuel : Nat) :
    Option JsonHeap :=
  freeLoop false mem a heap fuel

/-! ## What is freed -/

/-- The names that the loop leaves. -/
def leftNames (names : Bool) (s : Multiset (Block JsonBlock)) : Multiset (Block JsonBlock) :=
  if names then 0 else s

/-- What visits free: of the blocks in `account` those in `left` stay, and
no other block changes. The value that holds the visited ones, if there
is one, is not freed meanwhile. -/
def Frees (names : Bool) (mem : JsonMemory) (holder : Option Nat) (es : List (Nat × Nat))
    (account left : Multiset (Block JsonBlock)) : Prop :=
  ∀ (heap : JsonHeap) (rest : Multiset (Block JsonBlock)),
    (∀ a ∈ holder, (⟨.value, a⟩ : Block JsonBlock) ∈ rest) → heap.live = account + rest →
    ∃ heap', Walk.visitAll (freeVisit names mem) es (some heap) = some heap' ∧
      heap'.live = left + rest

theorem release_live {kind : JsonBlock} {addr : Option Nat} {heap : JsonHeap}
    {account : Multiset (Block JsonBlock)} (h : heap.live = Heap.share kind addr + account) :
    ∃ heap', release kind addr heap = some heap' ∧ heap'.live = account := by
  cases addr with
  | none => exact ⟨heap, rfl, h.trans (zero_add _)⟩
  | some a =>
    have hmem : (⟨kind, a⟩ : Block JsonBlock) ∈ heap.live := by
      rw [h]
      exact Multiset.mem_add.mpr (.inl (Multiset.mem_singleton_self _))
    exact ⟨heap.free kind a, if_pos hmem, Heap.free_live h⟩

theorem share_some (kind : JsonBlock) (a : Nat) :
    Heap.share kind (some a) = {⟨kind, a⟩} := rfl

theorem treeBlocks_nil (mem : JsonMemory) : treeBlocks mem [] = 0 := rfl

theorem treeBlocks_cons (mem : JsonMemory) (a : Nat) (as : List Nat) :
    treeBlocks mem (a :: as) = cellBlocks mem a + treeBlocks mem as := by
  rw [treeBlocks, List.map_cons, List.sum_cons, treeBlocks]

theorem treeBlocks_append (mem : JsonMemory) (as bs : List Nat) :
    treeBlocks mem (as ++ bs) = treeBlocks mem as + treeBlocks mem bs := by
  rw [treeBlocks, List.map_append, List.sum_append, treeBlocks, treeBlocks]

theorem treeNames_cons (mem : JsonMemory) (a : Nat) (as : List Nat) :
    treeNames mem (a :: as) = nameBlocks (mem a) + treeNames mem as := by
  rw [treeNames, List.map_cons, List.sum_cons, treeNames]

theorem treeNames_append (mem : JsonMemory) (as bs : List Nat) :
    treeNames mem (as ++ bs) = treeNames mem as + treeNames mem bs := by
  rw [treeNames, List.map_append, List.sum_append, treeNames, treeNames]

theorem leftNames_add (names : Bool) (s t : Multiset (Block JsonBlock)) :
    leftNames names (s + t) = leftNames names s + leftNames names t := by
  cases names
  · rfl
  · exact (add_zero 0).symm

section Frees

variable {names : Bool} {mem : JsonMemory}

theorem Frees.nil (holder : Option Nat) : Frees names mem holder [] 0 0 :=
  fun heap _ _ h => ⟨heap, rfl, h⟩

theorem Frees.append {holder : Option Nat} {es fs : List (Nat × Nat)}
    {account account' left left' : Multiset (Block JsonBlock)}
    (h : Frees names mem holder es account left)
    (h' : Frees names mem holder fs account' left') :
    Frees names mem holder (es ++ fs) (account + account') (left + left') := by
  intro heap rest hheld hlive
  have hheld₁ : ∀ a ∈ holder, (⟨.value, a⟩ : Block JsonBlock) ∈ account' + rest :=
    fun a ha => Multiset.mem_add.mpr (.inr (hheld a ha))
  have hheld₂ : ∀ a ∈ holder, (⟨.value, a⟩ : Block JsonBlock) ∈ left + rest :=
    fun a ha => Multiset.mem_add.mpr (.inr (hheld a ha))
  obtain ⟨heap₁, hrun₁, hlive₁⟩ := h heap (account' + rest) hheld₁ (by rw [hlive, add_assoc])
  obtain ⟨heap₂, hrun₂, hlive₂⟩ := h' heap₁ (left + rest) hheld₂ (by rw [hlive₁, add_left_comm])
  refine ⟨heap₂, by rw [Walk.visitAll_append, hrun₁, hrun₂], ?_⟩
  rw [hlive₂, add_left_comm, add_assoc]

/-- Visits that hold a value, and then the one that frees it. -/
theorem Frees.followed {a : Nat} {es fs : List (Nat × Nat)}
    {account last left : Multiset (Block JsonBlock)}
    (h : Frees names mem (some a) es account left)
    (h' : Frees names mem none fs (last + Heap.share .value (some a)) 0) :
    Frees names mem none (es ++ fs) (account + (last + Heap.share .value (some a))) left := by
  intro heap rest _ hlive
  have hheld : ∀ b ∈ some a, (⟨.value, b⟩ : Block JsonBlock) ∈
      last + Heap.share .value (some a) + rest := by
    intro b hb
    rw [Option.mem_some.mp hb, share_some]
    simp
  obtain ⟨heap₁, hrun₁, hlive₁⟩ := h heap _ hheld (by rw [hlive, add_assoc])
  obtain ⟨heap₂, hrun₂, hlive₂⟩ := h' heap₁ (left + rest) (fun _ h => nomatch h)
    (by rw [hlive₁, add_left_comm])
  refine ⟨heap₂, by rw [Walk.visitAll_append, hrun₁, hrun₂], ?_⟩
  rw [hlive₂, zero_add]

/-- Visits that hold no value. -/
theorem Frees.held {es : List (Nat × Nat)} {account left : Multiset (Block JsonBlock)}
    (h : Frees names mem none es account left) (a : Nat) :
    Frees names mem (some a) es account left :=
  fun heap rest _ hlive => h heap rest (fun _ h => nomatch h) hlive

/-- The last visit: what the value points to, and the value. -/
theorem frees_last {a i : Nat}
    (h : ∀ heap : JsonHeap, (⟨.value, a⟩ : Block JsonBlock) ∈ heap.live →
      ∃ kind addr, dataBlocks (mem a) = Heap.share kind addr ∧
        freeVisit names mem a i (some heap) =
          (release kind addr heap).bind (release .value (some a))) :
    Frees names mem none [(a, i)] (dataBlocks (mem a) + Heap.share .value (some a)) 0 := by
  intro heap rest _ hlive
  have hmem : (⟨.value, a⟩ : Block JsonBlock) ∈ heap.live := by
    rw [hlive, share_some]
    simp
  obtain ⟨kind, addr, hdata, hvisit⟩ := h heap hmem
  rw [hdata, add_assoc] at hlive
  obtain ⟨heap₁, hrun₁, hlive₁⟩ := release_live hlive
  obtain ⟨heap₂, hrun₂, hlive₂⟩ := release_live hlive₁
  refine ⟨heap₂, ?_, by rw [hlive₂, zero_add]⟩
  rw [Walk.visitAll_cons, Walk.visitAll_nil, hvisit, hrun₁, Option.bind_some, hrun₂]

/-- A visit on the way to a child, at which nothing is freed. -/
theorem frees_pass {a i : Nat} {own : Multiset (Block JsonBlock)}
    (h : ∀ heap : JsonHeap, (⟨.value, a⟩ : Block JsonBlock) ∈ heap.live →
      freeVisit names mem a i (some heap) = some heap) :
    Frees names mem (some a) [(a, i)] own own := by
  intro heap rest hheld hlive
  have hmem : (⟨.value, a⟩ : Block JsonBlock) ∈ heap.live := by
    rw [hlive]
    exact Multiset.mem_add.mpr (.inr (hheld a rfl))
  exact ⟨heap, by rw [Walk.visitAll_cons, Walk.visitAll_nil, h heap hmem], hlive⟩

/-- A visit on the way to the value of an entry. -/
theorem frees_entry {a i : Nat} {values : Option Nat} {all : List JsonEntry} {e : JsonEntry}
    (hpay : (mem a).payload = .object values all) (hi : i < all.length)
    (he : all[all.length - 1 - i]? = some e) :
    Frees names mem (some a) [(a, i)] (entryBlocks (mem a).isBuilderValue [e])
      (leftNames names (entryBlocks (mem a).isBuilderValue [e])) := by
  cases hown : names && (mem a).isBuilderValue with
  | false =>
    have hleft : leftNames names (entryBlocks (mem a).isBuilderValue [e]) =
        entryBlocks (mem a).isBuilderValue [e] := by
      rcases Bool.and_eq_false_iff.mp hown with h | h
      · rw [h]; rfl
      · rw [h]; cases names <;> rfl
    rw [hleft]
    exact frees_pass fun heap hmem => by
      simp only [freeVisit, Option.bind_some, if_pos hmem, hpay, if_pos hi, hown,
        Bool.false_eq_true, if_false]
  | true =>
    obtain ⟨rfl, hbuilder⟩ := Bool.and_eq_true_iff.mp hown
    intro heap rest hheld hlive
    have hmem : (⟨.value, a⟩ : Block JsonBlock) ∈ heap.live := by
      rw [hlive]
      exact Multiset.mem_add.mpr (.inr (hheld a rfl))
    have hname : entryBlocks (mem a).isBuilderValue [e] =
        Heap.share .chars (some e.nameAt) := by
      rw [hbuilder]
      exact add_zero _
    obtain ⟨heap', hrun, hlive'⟩ := release_live (hname ▸ hlive)
    refine ⟨heap', ?_, by rw [hlive']; exact (zero_add rest).symm⟩
    simp only [Walk.visitAll_cons, Walk.visitAll_nil, freeVisit, Option.bind_some, if_pos hmem,
      hpay, if_pos hi, hown, if_true, he, Option.map_some, hrun]

end Frees

theorem entryBlocks_cons (builder : Bool) (e : JsonEntry) (entries : List JsonEntry) :
    entryBlocks builder (e :: entries) =
      entryBlocks builder [e] + entryBlocks builder entries := by
  cases builder
  · rfl
  · rw [entryBlocks, entryBlocks, entryBlocks, if_pos rfl, if_pos rfl, if_pos rfl, List.map_cons,
      List.sum_cons, List.map_singleton, List.sum_singleton]

section Trees

variable {names : Bool} {mem : JsonMemory}

/-- A tree of one cell. -/
theorem frees_leaf {a : Nat} (hleaf : (mem a).payload.children = [])
    (hnames : nameBlocks (mem a) = 0)
    (h : ∀ heap : JsonHeap, (⟨.value, a⟩ : Block JsonBlock) ∈ heap.live →
      ∃ kind addr, dataBlocks (mem a) = Heap.share kind addr ∧
        freeVisit names mem a 0 (some heap) =
          (release kind addr heap).bind (release .value (some a))) :
    ∃ as' es, as'.Perm [a] ∧ Walk.Spans mem.descending mem.parent (mem a).parent a as' es ∧
      Frees names mem none es (treeBlocks mem [a]) (leftNames names (treeNames mem [a])) := by
  have hnone : (mem.descending a)[0]? = none := by
    rw [JsonMemory.descending, JsonMemory.children, hleaf]
    rfl
  have hblocks : treeBlocks mem [a] = dataBlocks (mem a) + Heap.share .value (some a) := by
    rw [treeBlocks_cons, treeBlocks_nil, cellBlocks, hnames, zero_add, add_zero]
  have hleft : leftNames names (treeNames mem [a]) = 0 := by
    rw [treeNames_cons, hnames, zero_add]
    cases names <;> rfl
  refine ⟨[a], [(a, 0)], .refl _, .node (.last hnone) List.not_mem_nil, ?_⟩
  rw [hblocks, hleft]
  exact frees_last h

/-- A number, a boolean and null point to nothing. -/
theorem frees_scalar {a : Nat} (hleaf : (mem a).payload.children = [])
    (hnames : nameBlocks (mem a) = 0) (hdata : dataBlocks (mem a) = 0)
    (h : ∀ heap : JsonHeap, (⟨.value, a⟩ : Block JsonBlock) ∈ heap.live →
      freeVisit names mem a 0 (some heap) = release .value (some a) heap) :
    ∃ as' es, as'.Perm [a] ∧ Walk.Spans mem.descending mem.parent (mem a).parent a as' es ∧
      Frees names mem none es (treeBlocks mem [a]) (leftNames names (treeNames mem [a])) :=
  frees_leaf hleaf hnames fun heap hmem => ⟨.value, none, hdata, h heap hmem⟩

mutual

/-- A tree can be walked from its last leaf, and the visits free what it
owns. -/
theorem Holds.frees {p : Option Nat} {a : Nat} {v : JsonValue} {as : List Nat} :
    Holds mem p a v as → ∃ as' es, as'.Perm as ∧
      Walk.Spans mem.descending mem.parent p a as' es ∧
      Frees names mem none es (treeBlocks mem as) (leftNames names (treeNames mem as))
  | .integer h => frees_scalar (by rw [h]; rfl) (by rw [nameBlocks, h]) (by rw [dataBlocks, h])
      fun heap hmem => by simp only [freeVisit, Option.bind_some, if_pos hmem, h]
  | .double h => frees_scalar (by rw [h]; rfl) (by rw [nameBlocks, h]) (by rw [dataBlocks, h])
      fun heap hmem => by simp only [freeVisit, Option.bind_some, if_pos hmem, h]
  | .string h => frees_leaf (by rw [h]; rfl) (by rw [nameBlocks, h]) fun heap hmem =>
      ⟨.chars, some _, by rw [dataBlocks, h], by
        simp only [freeVisit, Option.bind_some, if_pos hmem, h]⟩
  | .boolean h => frees_scalar (by rw [h]; rfl) (by rw [nameBlocks, h]) (by rw [dataBlocks, h])
      fun heap hmem => by simp only [freeVisit, Option.bind_some, if_pos hmem, h]
  | .null h => frees_scalar (by rw [h]; rfl) (by rw [nameBlocks, h]) (by rw [dataBlocks, h])
      fun heap hmem => by simp only [freeVisit, Option.bind_some, if_pos hmem, h]
  | @Holds.array _ a values elements as vs h hvs ha => by
      obtain ⟨as', es, hperm, hspans, hfrees⟩ := HoldsValues.frees h (Nat.le_refl _) hvs
      have hdown : (mem.descending a).drop 0 = elements.reverse := by
        rw [List.drop_zero, JsonMemory.descending, JsonMemory.children, h, JsonPayload.children]
      have hlast : Frees names mem none [(a, 0 + elements.reverse.length)]
          (dataBlocks (mem a) + Heap.share .value (some a)) 0 := by
        refine frees_last fun heap hmem => ⟨.values, values, by rw [dataBlocks, h], ?_⟩
        simp only [freeVisit, Option.bind_some, if_pos hmem, h, List.length_reverse, zero_add,
          Nat.lt_irrefl, if_false]
      have hnot : a ∉ as' := fun hmem => ha (hperm.mem_iff.mp hmem)
      refine ⟨a :: as', _, hperm.cons a, .node (hspans.last hdown) hnot, ?_⟩
      have hnames : nameBlocks (mem a) = 0 := by rw [nameBlocks, h]
      have hall := hfrees.followed hlast
      rw [treeBlocks_cons, treeNames_cons, cellBlocks, hnames, zero_add (dataBlocks (mem a) + _),
        zero_add (treeNames mem as), add_comm _ (treeBlocks mem as)]
      exact hall
  | @Holds.object _ a values entries as _ h hes ha => by
      obtain ⟨as', es, hperm, hspans, hfrees⟩ := HoldsEntries.frees h (List.drop_zero ..) hes
      have hdown : (mem.descending a).drop 0 = (entries.map JsonEntry.value).reverse := by
        rw [List.drop_zero, JsonMemory.descending, JsonMemory.children, h, JsonPayload.children]
      have hlast : Frees names mem none [(a, 0 + (entries.map JsonEntry.value).reverse.length)]
          (dataBlocks (mem a) + Heap.share .value (some a)) 0 := by
        refine frees_last fun heap hmem => ⟨.values, values, by rw [dataBlocks, h], ?_⟩
        simp only [freeVisit, Option.bind_some, if_pos hmem, h, List.length_reverse,
          List.length_map, zero_add, Nat.lt_irrefl, if_false]
      have hnot : a ∉ as' := fun hmem => ha (hperm.mem_iff.mp hmem)
      refine ⟨a :: as', _, hperm.cons a, .node (hspans.last hdown) hnot, ?_⟩
      have hnames : nameBlocks (mem a) = entryBlocks (mem a).isBuilderValue entries := by
        rw [nameBlocks, h]
      have hall := hfrees.followed hlast
      rw [treeBlocks_cons, treeNames_cons, cellBlocks, hnames, add_right_comm]
      exact hall

theorem HoldsValues.frees {a : Nat} {values : Option Nat} {all elements as : List Nat}
    {vs : List JsonValue} (hpay : (mem a).payload = .array values all)
    (hle : elements.length ≤ all.length) : HoldsValues mem a elements vs as →
    ∃ as' es, as'.Perm as ∧
      Walk.SpansSome mem.descending mem.parent a 0 elements.reverse as' es ∧
      Frees names mem (some a) es (treeBlocks mem as) (leftNames names (treeNames mem as))
  | .nil => ⟨[], [], .refl _, .nil, by cases names <;> exact .nil (some a)⟩
  | @HoldsValues.cons _ _ c elements as bs _ _ hv hvs hdis => by
      obtain ⟨as₁, es₁, hperm₁, hspans₁, hfrees₁⟩ := Holds.frees hv
      obtain ⟨as₂, es₂, hperm₂, hspans₂, hfrees₂⟩ := HoldsValues.frees hpay
        (Nat.le_of_succ_le hle) hvs
      have hdis' : as₂.Disjoint as₁ := fun x h₂ h₁ =>
        hdis (hperm₁.mem_iff.mp h₁) (hperm₂.mem_iff.mp h₂)
      have hpass : Frees names mem (some a) [(a, 0 + elements.reverse.length)] 0 0 := by
        refine frees_pass fun heap hmem => ?_
        have hlt : 0 + elements.reverse.length < all.length := by
          rw [zero_add, List.length_reverse]
          exact hle
        simp only [freeVisit, Option.bind_some, if_pos hmem, hpay, if_pos hlt]
      have hall := hfrees₂.append (hpass.append (hfrees₁.held a))
      rw [zero_add (treeBlocks mem as), zero_add (leftNames names _), ← leftNames_add,
        add_comm (treeBlocks mem bs), add_comm (treeNames mem bs), ← treeBlocks_append,
        ← treeNames_append] at hall
      rw [List.reverse_cons]
      exact ⟨_, _, (hperm₂.append hperm₁).trans List.perm_append_comm,
        hspans₂.snoc hspans₁ hdis', hall⟩

theorem HoldsEntries.frees {a : Nat} {values : Option Nat} {all entries : List JsonEntry}
    {as : List Nat} {es : List (Bytes × JsonValue)} {k : Nat}
    (hpay : (mem a).payload = .object values all) (hdrop : all.drop k = entries) :
    HoldsEntries mem a entries es as → ∃ as' fs, as'.Perm as ∧
      Walk.SpansSome mem.descending mem.parent a 0 (entries.map JsonEntry.value).reverse as' fs ∧
      Frees names mem (some a) fs (entryBlocks (mem a).isBuilderValue entries + treeBlocks mem as)
        (leftNames names (entryBlocks (mem a).isBuilderValue entries + treeNames mem as))
  | .nil => ⟨[], [], .refl _, .nil, by
      cases (mem a).isBuilderValue <;> cases names <;> exact .nil (some a)⟩
  | @HoldsEntries.cons _ _ e entries as bs _ _ hv hes hdis => by
      have hdrop' : all.drop (k + 1) = entries := by
        rw [← List.tail_drop, hdrop, List.tail_cons]
      have hlen : all.length = k + (entries.length + 1) := by
        have := congrArg List.length hdrop
        rw [List.length_drop, List.length_cons] at this
        omega
      have hget : all[k]? = some e := by
        rw [← List.head?_drop, hdrop, List.head?_cons]
      obtain ⟨as₁, es₁, hperm₁, hspans₁, hfrees₁⟩ := Holds.frees hv
      obtain ⟨as₂, es₂, hperm₂, hspans₂, hfrees₂⟩ := HoldsEntries.frees hpay hdrop' hes
      have hdis' : as₂.Disjoint as₁ := fun x h₂ h₁ =>
        hdis (hperm₁.mem_iff.mp h₁) (hperm₂.mem_iff.mp h₂)
      have hname : Frees names mem (some a)
          [(a, 0 + (entries.map JsonEntry.value).reverse.length)]
          (entryBlocks (mem a).isBuilderValue [e])
          (leftNames names (entryBlocks (mem a).isBuilderValue [e])) := by
        rw [zero_add, List.length_reverse, List.length_map]
        refine frees_entry hpay (by omega) ?_
        have hk : all.length - 1 - entries.length = k := by omega
        rw [hk, hget]
      have hall := hfrees₂.append (hname.append (hfrees₁.held a))
      rw [← leftNames_add, ← leftNames_add,
        add_add_add_comm _ (treeBlocks mem bs), add_add_add_comm _ (treeNames mem bs),
        add_comm (entryBlocks _ entries), add_comm (treeBlocks mem bs),
        add_comm (treeNames mem bs), ← entryBlocks_cons, ← treeBlocks_append,
        ← treeNames_append] at hall
      rw [List.map_cons, List.reverse_cons]
      exact ⟨_, _, (hperm₂.append hperm₁).trans List.perm_append_comm,
        hspans₂.snoc hspans₁ hdis', hall⟩

end

/-- The loop frees what the tree owns. -/
theorem freeLoop_live {p : Option Nat} {a : Nat} {v : JsonValue} {as : List Nat} {heap : JsonHeap}
    {rest : Multiset (Block JsonBlock)} (h : Holds mem p a v as)
    (hlive : heap.live = treeBlocks mem as + rest) : ∃ n, ∀ fuel, n ≤ fuel →
      ∃ heap', freeLoop names mem a heap fuel = some heap' ∧
        heap'.live = leftNames names (treeNames mem as) + rest := by
  obtain ⟨as', es, _, hspans, hfrees⟩ := @Holds.frees names _ _ _ _ _ h
  obtain ⟨heap', hvisits, hlive'⟩ := hfrees heap rest (fun _ h => nomatch h) hlive
  have hzero : ∀ b ∈ as', (fun _ => 0) b = 0 := fun _ _ => rfl
  obtain ⟨count', hrun, _⟩ := @Walk.Spans.walk _ _ _ _ _ id (freeVisit names mem) _ _ _ _ _
    (some heap) hzero hspans.detach
  refine ⟨es.length, fun fuel hfuel => ⟨heap', ?_, hlive'⟩⟩
  rw [freeLoop, Walk.steps_of_le _ _ _ _ hrun rfl hfuel]
  exact hvisits

end Trees

/-- `json_builder_free` frees every block of the tree, each once, and
looks at no value that it has freed. `json_value_free_ex` leaves the
names of builder values. -/
theorem jsonBuilderFree_live {mem : JsonMemory} {p : Option Nat} {a : Nat} {v : JsonValue}
    {as : List Nat} {heap : JsonHeap} {rest : Multiset (Block JsonBlock)}
    (h : Holds mem p a v as) (hlive : heap.live = treeBlocks mem as + rest) :
    ∃ n, ∀ fuel, n ≤ fuel →
      (∃ heap', jsonBuilderFree mem a heap fuel = some heap' ∧ heap'.live = rest) ∧
      ∃ heap', jsonValueFreeEx mem a heap fuel = some heap' ∧
        heap'.live = treeNames mem as + rest := by
  obtain ⟨m, hbuilder⟩ := @freeLoop_live true _ _ _ _ _ _ _ h hlive
  obtain ⟨n, hvalue⟩ := @freeLoop_live false _ _ _ _ _ _ _ h hlive
  refine ⟨max m n, fun fuel hfuel => ⟨?_, hvalue fuel (le_of_max_le_right hfuel)⟩⟩
  obtain ⟨heap', hrun, hlive'⟩ := hbuilder fuel (le_of_max_le_left hfuel)
  exact ⟨heap', hrun, hlive'.trans (zero_add rest)⟩

theorem jsonBuilderFree_live_sample : ∃ n, ∀ fuel, n ≤ fuel →
    (∃ heap', jsonBuilderFree sampleMemory 0 ⟨14, treeBlocks sampleMemory [0, 1, 2, 3] + 0⟩ fuel =
      some heap' ∧ heap'.live = 0) ∧
    ∃ heap', jsonValueFreeEx sampleMemory 0 ⟨14, treeBlocks sampleMemory [0, 1, 2, 3] + 0⟩ fuel =
      some heap' ∧ heap'.live = treeNames sampleMemory [0, 1, 2, 3] + 0 :=
  jsonBuilderFree_live holds_sampleMemory rfl

end Pyoneer.Shared
