import Mathlib.Data.List.Chain
import Goobers.Lib.Walk

/-!
# Reaching definitions

Some nodes of a finite graph are definitions. A definition reaches a node if a path
leads from it to the node on which no other definition comes in between. The loop goes
over the nodes and passes what each has along its edges, a definition itself and any
other node what has reached it, until a pass adds nothing.

What is found is a list of rows, each a node and a definition that reaches it. Every
row stands for a path, by induction over the loop; and since the last pass added
nothing, the rows are closed under the edges, so every path has its row. The loop is
given as many passes as there can be rows.
-/

namespace Goobers.Lib.Dataflow

open List

variable {α : Type} [DecidableEq α]

variable {P : α × α → Prop} {p t : α}

def addRow (rows : List (α × α)) (row : α × α) : List (α × α) :=
  if row ∈ rows then rows else row :: rows

def out (isDef : α → Bool) (rows : List (α × α)) (node : α) : List α :=
  if isDef node then [node] else (rows.filter (fun row => row.1 = node)).map Prod.snd

def flow (isDef : α → Bool) (rows : List (α × α)) (node target : α) : List (α × α) :=
  (out isDef rows node).foldl (fun rows p => addRow rows (target, p)) rows

def flowAll (isDef : α → Bool) (next : α → List α) (rows : List (α × α)) (node : α) :
    List (α × α) :=
  (next node).foldl (fun rows target => flow isDef rows node target) rows

def pass (isDef : α → Bool) (next : α → List α) (nodes : List α) (rows : List (α × α)) :
    List (α × α) :=
  nodes.foldl (flowAll isDef next) rows

/-- Passes until one adds nothing, at most the given number. -/
def settle (isDef : α → Bool) (next : α → List α) (nodes : List α) :
    Nat → List (α × α) → List (α × α)
  | 0, rows => rows
  | left + 1, rows =>
    let rows' := pass isDef next nodes rows
    if rows'.all (fun row => row ∈ rows) then rows else settle isDef next nodes left rows'

/-- All rows there can be. -/
def candidates (isDef : α → Bool) (next : α → List α) (nodes : List α) : List (α × α) :=
  (nodes.flatMap next).flatMap (fun target => (nodes.filter isDef).map (fun p => (target, p)))

def reaching (isDef : α → Bool) (next : α → List α) (nodes : List α) : List (α × α) :=
  settle isDef next nodes ((candidates isDef next nodes).length + 1) []

/-- One follows the other along an edge of the graph. -/
def Edge (next : α → List α) (nodes : List α) (a b : α) : Prop := a ∈ nodes ∧ b ∈ next a

/-- The definition reaches the node: by an edge, or on from a node that is no definition. -/
inductive Reaches (isDef : α → Bool) (E : α → α → Prop) (p : α) : α → Prop
  | first {t : α} (hdef : isDef p = true) (hedge : E p t) : Reaches isDef E p t
  | on {s t : α} (h : Reaches isDef E p s) (hdef : isDef s = false) (hedge : E s t) :
      Reaches isDef E p t

variable {isDef : α → Bool} {next : α → List α} {nodes : List α} {rows : List (α × α)}

theorem mem_of_addRow {row row' : α × α} (h : row' ∈ addRow rows row) :
    row' ∈ rows ∨ row' = row := by
  unfold addRow at h
  split at h
  · exact .inl h
  · rcases mem_cons.mp h with h | h
    · exact .inr h
    · exact .inl h

theorem subset_addRow (row : α × α) : rows ⊆ addRow rows row := by
  unfold addRow
  split
  · exact fun _ h => h
  · exact subset_cons_self _ _

theorem mem_addRow (row : α × α) : row ∈ addRow rows row := by
  unfold addRow
  split
  · assumption
  · simp

/-! ## Every row stands for a path -/

theorem foldl_addRow {ps : List α} {target : α} (hrows : ∀ row ∈ rows, P row)
    (hps : ∀ p ∈ ps, P (target, p)) :
    ∀ row ∈ ps.foldl (fun rows p => addRow rows (target, p)) rows, P row := by
  induction ps generalizing rows with
  | nil => exact hrows
  | cons p ps ih =>
    refine ih ?_ (fun q hq => hps q (mem_cons_of_mem p hq))
    intro row hrow
    rcases mem_of_addRow hrow with hrow | rfl
    · exact hrows row hrow
    · exact hps p (by simp)

theorem mem_out {node : α} : p ∈ out isDef rows node ↔
    (isDef node = true ∧ p = node) ∨ (isDef node = false ∧ (node, p) ∈ rows) := by
  unfold out
  cases hdef : isDef node with
  | true => simp
  | false =>
    simp only [Bool.false_eq_true, if_false, mem_map, mem_filter, decide_eq_true_eq,
      false_and, true_and, false_or]
    constructor
    · rintro ⟨⟨n, q⟩, ⟨hrow, rfl⟩, rfl⟩
      exact hrow
    · exact fun h => ⟨(node, p), ⟨h, rfl⟩, rfl⟩

theorem pass_induction (hfirst : ∀ n ∈ nodes, isDef n = true → ∀ t ∈ next n, P (t, n))
    (hon : ∀ n ∈ nodes, isDef n = false → ∀ p, P (n, p) → ∀ t ∈ next n, P (t, p))
    (hrows : ∀ row ∈ rows, P row) : ∀ row ∈ pass isDef next nodes rows, P row := by
  have hflow : ∀ n ∈ nodes, ∀ t ∈ next n, ∀ rows : List (α × α), (∀ row ∈ rows, P row) →
      ∀ row ∈ flow isDef rows n t, P row := by
    intro n hn t ht rows hrows
    refine foldl_addRow hrows fun p hp => ?_
    rcases mem_out.mp hp with ⟨hdef, rfl⟩ | ⟨hdef, hrow⟩
    · exact hfirst p hn hdef t ht
    · exact hon n hn hdef p (hrows _ hrow) t ht
  have hall : ∀ n ∈ nodes, ∀ rows : List (α × α), (∀ row ∈ rows, P row) →
      ∀ row ∈ flowAll isDef next rows n, P row := by
    intro n hn rows hrows
    refine foldlRecOn (next n) _ (motive := fun rows => ∀ row ∈ rows, P row) hrows ?_
    exact fun rows hrows t ht => hflow n hn t ht rows hrows
  refine foldlRecOn nodes _ (motive := fun rows => ∀ row ∈ rows, P row) hrows ?_
  exact fun rows hrows n hn => hall n hn rows hrows

theorem settle_induction (hfirst : ∀ n ∈ nodes, isDef n = true → ∀ t ∈ next n, P (t, n))
    (hon : ∀ n ∈ nodes, isDef n = false → ∀ p, P (n, p) → ∀ t ∈ next n, P (t, p)) (left : Nat)
    (hrows : ∀ row ∈ rows, P row) : ∀ row ∈ settle isDef next nodes left rows, P row := by
  induction left generalizing rows with
  | zero => exact hrows
  | succ left ih =>
    unfold settle
    dsimp only
    split
    · exact hrows
    · exact ih (pass_induction hfirst hon hrows)

/-! ## Every path has its row -/

omit [DecidableEq α] in
theorem subset_foldl {β : Type} {f : List (α × α) → β → List (α × α)}
    (hf : ∀ rows b, rows ⊆ f rows b) (l : List β) (rows : List (α × α)) :
    rows ⊆ l.foldl f rows := by
  induction l generalizing rows with
  | nil => exact fun _ h => h
  | cons b l ih => exact fun _ h => ih (f rows b) (hf rows b h)

omit [DecidableEq α] in
theorem mem_foldl {β : Type} {f : List (α × α) → β → List (α × α)}
    (hf : ∀ rows b, rows ⊆ f rows b) {l : List β} {b : β} (hb : b ∈ l) {row : α × α}
    (hstep : ∀ rows', rows ⊆ rows' → row ∈ f rows' b) : row ∈ l.foldl f rows := by
  induction l generalizing rows with
  | nil => cases hb
  | cons x l ih =>
    rcases mem_cons.mp hb with rfl | hb
    · exact subset_foldl hf l _ (hstep rows fun _ h => h)
    · exact ih hb fun rows' hsub => hstep rows' fun _ h => hsub (hf rows x h)

theorem subset_flow (rows : List (α × α)) (node target : α) :
    rows ⊆ flow isDef rows node target :=
  subset_foldl (fun _ _ => subset_addRow _) _ _

theorem subset_flowAll (rows : List (α × α)) (node : α) :
    rows ⊆ flowAll isDef next rows node :=
  subset_foldl (fun rows t => subset_flow rows node t) _ _

theorem subset_pass (rows : List (α × α)) : rows ⊆ pass isDef next nodes rows :=
  subset_foldl (fun rows n => subset_flowAll rows n) _ _

theorem mem_pass {n : α} (hn : n ∈ nodes) (ht : t ∈ next n) (hp : p ∈ out isDef rows n) :
    (t, p) ∈ pass isDef next nodes rows := by
  refine mem_foldl (fun rows n => subset_flowAll rows n) hn fun rows₁ h₁ => ?_
  refine mem_foldl (fun rows t => subset_flow rows n t) ht fun rows₂ h₂ => ?_
  have hp₂ : p ∈ out isDef rows₂ n := by
    rw [mem_out] at hp ⊢
    exact hp.imp_right fun h => ⟨h.1, h₂ (h₁ h.2)⟩
  exact mem_foldl (fun _ _ => subset_addRow _) hp₂ fun _ _ => mem_addRow _

omit [DecidableEq α] in
theorem mem_candidates {n : α} (hn : n ∈ nodes) (ht : t ∈ next n) (hp : p ∈ nodes)
    (hdef : isDef p = true) : (t, p) ∈ candidates isDef next nodes := by
  refine mem_flatMap.mpr ⟨t, mem_flatMap.mpr ⟨n, hn, ht⟩, ?_⟩
  exact mem_map.mpr ⟨p, mem_filter.mpr ⟨hp, hdef⟩, rfl⟩

theorem closed_settle {left : Nat}
    (hrows : ∀ row ∈ rows, row ∈ candidates isDef next nodes ∧ row.2 ∈ nodes ∧ isDef row.2 = true)
    (hleft : unseen (fun _ => 1) (candidates isDef next nodes) rows < left) {n : α} (hn : n ∈ nodes)
    (ht : t ∈ next n) (hp : p ∈ out isDef (settle isDef next nodes left rows) n) :
    (t, p) ∈ settle isDef next nodes left rows := by
  induction left generalizing rows with
  | zero => exact absurd hleft (Nat.not_lt_zero _)
  | succ left ih =>
    unfold settle at hp ⊢
    dsimp only at hp ⊢
    split_ifs at hp with hall
    · rw [if_pos hall]
      rw [all_eq_true] at hall
      exact of_decide_eq_true (hall _ (mem_pass hn ht hp))
    · rw [if_neg hall]
      rw [all_eq_true] at hall
      have hrows' : ∀ row ∈ pass isDef next nodes rows,
          row ∈ candidates isDef next nodes ∧ row.2 ∈ nodes ∧ isDef row.2 = true := by
        refine pass_induction (fun n hn hdef t ht => ?_) (fun n hn _ p hp t ht => ?_) hrows
        · exact ⟨mem_candidates hn ht hn hdef, hn, hdef⟩
        · exact ⟨mem_candidates hn ht hp.2.1 hp.2.2, hp.2⟩
      refine ih hrows' ?_ hp
      -- a pass that adds a row leaves fewer to be added
      obtain ⟨row, hrow, hnew⟩ : ∃ row ∈ pass isDef next nodes rows, row ∉ rows := by
        simpa only [decide_eq_true_eq, not_forall, exists_prop] using hall
      have := unseen_add_le (fun _ => 1) (subset_pass rows) (hrows' row hrow).1 hnew hrow
      omega

/-- **The rows are the definitions that reach a node.** -/
theorem mem_reaching_iff :
    (t, p) ∈ reaching isDef next nodes ↔ Reaches isDef (Edge next nodes) p t := by
  have hleft : unseen (fun _ => 1) (candidates isDef next nodes) [] <
      (candidates isDef next nodes).length + 1 := by
    unfold unseen
    simp
  constructor
  · intro h
    have hall : ∀ row ∈ reaching isDef next nodes, Reaches isDef (Edge next nodes) row.2 row.1 :=
      settle_induction (fun n hn hdef t ht => .first hdef ⟨hn, ht⟩)
        (fun n hn hdef p hp t ht => .on hp hdef ⟨hn, ht⟩) _ (by simp)
    exact hall (t, p) h
  · intro h
    induction h with
    | first hdef hedge =>
      exact closed_settle (by simp) hleft hedge.1 hedge.2 (mem_out.mpr (.inl ⟨hdef, rfl⟩))
    | on _ hdef hedge ih =>
      exact closed_settle (by simp) hleft hedge.1 hedge.2 (mem_out.mpr (.inr ⟨hdef, ih⟩))

/-! ## Paths -/

section paths

omit [DecidableEq α]

variable {E : α → α → Prop}

theorem Reaches.mono {E' : α → α → Prop} (hE : ∀ a b, E a b → E' a b) (h : Reaches isDef E p t) :
    Reaches isDef E' p t := by
  induction h with
  | first hdef hedge => exact .first hdef (hE _ _ hedge)
  | on _ hdef hedge ih => exact .on ih hdef (hE _ _ hedge)

theorem Reaches.edge {cur : α} (hdef : isDef p = true) (hcur : cur = p ∨ Reaches isDef E p cur)
    (hmine : isDef cur = true → cur = p) (hedge : E cur t) : Reaches isDef E p t := by
  cases hc : isDef cur with
  | true =>
    obtain rfl := hmine hc
    exact .first hdef hedge
  | false =>
    rcases hcur with rfl | hcur
    · rw [hdef] at hc
      cases hc
    · exact .on hcur hc hedge

theorem Reaches.chain {cur : α} {mid : List α} (hdef : isDef p = true)
    (hcur : cur = p ∨ Reaches isDef E p cur) (hmine : isDef cur = true → cur = p)
    (hchain : (cur :: (mid ++ [t])).IsChain E) (hmid : ∀ x ∈ mid, isDef x = true → x = p) :
    Reaches isDef E p t := by
  induction mid generalizing cur with
  | nil => exact .edge hdef hcur hmine (isChain_cons_cons.mp hchain).1
  | cons x mid ih =>
    obtain ⟨hedge, hrest⟩ := isChain_cons_cons.mp hchain
    exact ih (.inr (.edge hdef hcur hmine hedge)) (hmid x (by simp)) hrest
      fun y hy => hmid y (mem_cons_of_mem x hy)

/-- **A definition reaches a node along a path without another one in between.** -/
theorem reaches_iff_path : Reaches isDef E p t ↔ isDef p = true ∧ ∃ mid : List α,
      (p :: (mid ++ [t])).IsChain E ∧ ∀ x ∈ mid, isDef x = true → x = p := by
  constructor
  · intro h
    induction h with
    | first hdef hedge =>
      exact ⟨hdef, [], isChain_cons_cons.mpr ⟨hedge, List.IsChain.singleton _⟩, by simp⟩
    | @on s t h hdef hedge ih =>
      obtain ⟨hp, mid, hchain, hmid⟩ := ih
      refine ⟨hp, mid ++ [s], ?_, ?_⟩
      · rw [append_assoc, singleton_append, ← cons_append,
          isChain_append_cons_cons]
        exact ⟨hchain, hedge, List.IsChain.singleton _⟩
      · intro x hx hxdef
        rcases mem_append.mp hx with hx | hx
        · exact hmid x hx hxdef
        · rw [mem_singleton.mp hx, hdef] at hxdef
          cases hxdef
  · rintro ⟨hdef, mid, hchain, hmid⟩
    exact .chain hdef (.inl rfl) (fun _ => rfl) hchain hmid

end paths

end Goobers.Lib.Dataflow
