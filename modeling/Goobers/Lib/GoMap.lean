import Mathlib.Data.List.AList

/-!
# Finite maps with unordered iteration

A map of the modelled programs is an association list without duplicate keys.
Lookups are what the proofs use; the order of the rows is never visible through
them, so a definition that walks the rows models a loop whose order the source
leaves open.

`sift` keeps, changes or drops every row by a function of its key and value; `collect`
builds a new map in this way.
-/

namespace Goobers.Lib

variable {κ ν : Type} [DecidableEq κ]

variable {k : κ}

abbrev GoMap (κ ν : Type) := AList (fun _ : κ => ν)

variable {m : GoMap κ ν}

namespace GoMap

def get? (m : GoMap κ ν) (k : κ) : Option ν := m.lookup k

def put (m : GoMap κ ν) (k : κ) (v : ν) : GoMap κ ν := m.insert k v

def del (m : GoMap κ ν) (k : κ) : GoMap κ ν := m.erase k

/-- The rows, in some order. -/
def rows (m : GoMap κ ν) : List (κ × ν) := m.entries.map (fun s => (s.1, s.2))

private def siftRow (f : κ → ν → Option ν) (s : Sigma (fun _ : κ => ν)) :
    Option (Sigma (fun _ : κ => ν)) :=
  (f s.1 s.2).map (fun v => ⟨s.1, v⟩)

omit [DecidableEq κ] in
private theorem keys_filterMap_siftRow (f : κ → ν → Option ν)
    (l : List (Sigma (fun _ : κ => ν))) : (l.filterMap (siftRow f)).keys.Sublist l.keys := by
  induction l with
  | nil => simp
  | cons s l ih =>
    rw [List.filterMap_cons]
    cases h : siftRow f s with
    | none => exact ih.cons _
    | some t =>
      have hkey : t.1 = s.1 := by
        obtain ⟨v, _, hv⟩ := Option.map_eq_some_iff.mp h
        rw [← hv]
      simp only [List.keys, List.map_cons] at ih ⊢
      rw [hkey]
      exact ih.cons_cons _

/-- Keep the rows `f` gives a value for, with that value. -/
def sift (m : GoMap κ ν) (f : κ → ν → Option ν) : GoMap κ ν where
  entries := m.entries.filterMap (siftRow f)
  nodupKeys := (keys_filterMap_siftRow f m.entries).nodup m.nodupKeys

@[simp] theorem get?_empty (k : κ) : get? (∅ : GoMap κ ν) k = none := rfl

theorem get?_put (m : GoMap κ ν) (k k' : κ) (v : ν) :
    (m.put k v).get? k' = if k' = k then some v else m.get? k' := by
  split_ifs with h
  · subst h
    exact AList.lookup_insert m
  · exact AList.lookup_insert_ne h

@[simp] theorem get?_put_self (m : GoMap κ ν) (k : κ) (v : ν) : (m.put k v).get? k = some v := by
  rw [get?_put, if_pos rfl]

theorem get?_put_of_ne (m : GoMap κ ν) {k' : κ} (h : k' ≠ k) (v : ν) :
    (m.put k v).get? k' = m.get? k' := by
  rw [get?_put, if_neg h]

theorem get?_del (m : GoMap κ ν) (k k' : κ) :
    (m.del k).get? k' = if k' = k then none else m.get? k' := by
  split_ifs with h
  · subst h
    exact AList.lookup_erase k' m
  · exact AList.lookup_erase_ne h

@[simp] theorem get?_del_self (m : GoMap κ ν) (k : κ) : (m.del k).get? k = none := by
  rw [get?_del, if_pos rfl]

theorem get?_del_of_ne (m : GoMap κ ν) {k' : κ} (h : k' ≠ k) : (m.del k).get? k' = m.get? k' := by
  rw [get?_del, if_neg h]

theorem mem_rows {v : ν} : (k, v) ∈ m.rows ↔ m.get? k = some v := by
  have h : m.get? k = some v ↔ (⟨k, v⟩ : Sigma (fun _ : κ => ν)) ∈ m.entries :=
    AList.mem_lookup_iff
  rw [h]
  unfold rows
  rw [List.mem_map]
  constructor
  · intro ⟨s, hs, heq⟩
    obtain ⟨hk, hv⟩ := Prod.mk.injEq .. ▸ heq
    subst hk hv
    exact hs
  · intro hs
    exact ⟨_, hs, rfl⟩

omit [DecidableEq κ] in
theorem nodup_rows (m : GoMap κ ν) : (m.rows.map Prod.fst).Nodup := by
  have h : m.rows.map Prod.fst = m.entries.keys := by
    unfold rows List.keys
    rw [List.map_map]
    rfl
  rw [h]
  exact m.nodupKeys

theorem get?_sift (m : GoMap κ ν) (f : κ → ν → Option ν) (k : κ) :
    (m.sift f).get? k = (m.get? k).bind (f k) := by
  have hmem : ∀ v, (m.sift f).get? k = some v ↔ ∃ w, m.get? k = some w ∧ f k w = some v := by
    intro v
    rw [← mem_rows]
    simp only [rows, sift, List.mem_map, List.mem_filterMap, siftRow, Option.map_eq_some_iff]
    constructor
    · intro ⟨s, ⟨t, ht, w, hw, hs⟩, heq⟩
      subst hs
      obtain ⟨hk, hv⟩ := Prod.mk.injEq .. ▸ heq
      subst hk hv
      exact ⟨t.2, AList.mem_lookup_iff.mpr ht, hw⟩
    · intro ⟨w, hw, hf⟩
      exact ⟨⟨k, v⟩, ⟨⟨k, w⟩, AList.mem_lookup_iff.mp hw, v, hf, rfl⟩, rfl⟩
  apply Option.ext
  intro v
  rw [hmem]
  exact Option.bind_eq_some_iff.symm

theorem get?_foldl_cases {β : Type} {step : GoMap κ ν → β → GoMap κ ν} {Q : β → κ → ν → Prop}
    (hstep : ∀ m x k v, get? (step m x) k = some v → get? m k = some v ∨ Q x k v) {xs : List β}
    {v : ν} (h : get? (xs.foldl step m) k = some v) : get? m k = some v ∨ ∃ x ∈ xs, Q x k v := by
  induction xs generalizing m with
  | nil => exact .inl h
  | cons x xs ih =>
    rcases ih h with h | ⟨y, hy, hq⟩
    · rcases hstep m x k v h with h | hq
      · exact .inl h
      · exact .inr ⟨x, by simp, hq⟩
    · exact .inr ⟨y, List.mem_cons_of_mem x hy, hq⟩

theorem isSome_get?_foldl {β : Type} {step : GoMap κ ν → β → GoMap κ ν}
    (hkeep : ∀ m x, (get? m k).isSome = true → (get? (step m x) k).isSome = true) {xs : List β}
    (h : (get? m k).isSome = true ∨ ∃ x ∈ xs, ∀ m, (get? (step m x) k).isSome = true) :
    (get? (xs.foldl step m) k).isSome = true := by
  induction xs generalizing m with
  | nil =>
    rcases h with hm | ⟨x, hx, _⟩
    · exact hm
    · cases hx
  | cons y xs ih =>
    apply ih
    rcases h with hm | ⟨x, hx, hput⟩
    · exact .inl (hkeep m y hm)
    · rcases List.mem_cons.mp hx with rfl | hx
      · exact .inl (hput m)
      · exact .inr ⟨x, hx, hput⟩

theorem isSome_get?_put {k' : κ} {v : ν} (h : (m.get? k).isSome = true) :
    ((m.put k' v).get? k).isSome = true := by
  rw [get?_put]
  split
  · rfl
  · exact h

theorem row_of_get?_foldl_putNew {rows : List (κ × ν)} {v : ν} (h : get? (rows.foldl (fun m row =>
      if (m.get? row.1).isSome then m else m.put row.1 row.2) (∅ : GoMap κ ν)) k = some v) :
    (k, v) ∈ rows := by
  have hstep : ∀ (m : GoMap κ ν) (row : κ × ν) (k : κ) (v : ν),
      (if (m.get? row.1).isSome then m else m.put row.1 row.2).get? k = some v →
        m.get? k = some v ∨ row = (k, v) := by
    intro m row k v hget
    split at hget
    · exact .inl hget
    · rw [get?_put] at hget
      split_ifs at hget with hk
      · exact .inr (by rw [hk, ← Option.some.inj hget])
      · exact .inl hget
  rcases get?_foldl_cases hstep h with hempty | ⟨row, hrow, rfl⟩
  · cases hempty
  · exact hrow

theorem isSome_get?_foldl_putNew {rows : List (κ × ν)}
    (h : (m.get? k).isSome = true ∨ ∃ v, (k, v) ∈ rows) : (get? (rows.foldl (fun m row =>
      if (m.get? row.1).isSome then m else m.put row.1 row.2) m) k).isSome = true := by
  refine isSome_get?_foldl (fun m row hm => ?_) (h.imp_right fun ⟨v, hv⟩ => ⟨(k, v), hv, ?_⟩)
  · split
    · exact hm
    · exact isSome_get?_put hm
  · intro m
    split
    · assumption
    · rw [get?_put_self]
      rfl

/-- A new map from the rows `f` gives a value for. -/
def collect {μ : Type} (m : GoMap κ μ) (f : κ → μ → Option ν) : GoMap κ ν :=
  m.rows.foldl (fun out row =>
    match f row.1 row.2 with
    | some v => out.put row.1 v
    | none => out) ∅

theorem get?_collect {μ : Type} (m : GoMap κ μ) (f : κ → μ → Option ν) (k : κ) :
    (m.collect f).get? k = (m.get? k).bind (f k) := by
  have hstep : ∀ (out : GoMap κ ν) (row : κ × μ) (k : κ) (v : ν),
      get? (match f row.1 row.2 with
        | some v => out.put row.1 v
        | none => out) k = some v →
      get? out k = some v ∨ (row.1 = k ∧ f k row.2 = some v) := by
    intro out row k v hget
    split at hget
    · rename_i w hw
      rw [get?_put] at hget
      split_ifs at hget with hk
      · subst hk
        exact .inr ⟨rfl, by rw [hw, hget]⟩
      · exact .inl hget
    · exact .inl hget
  have hsound : ∀ v, (m.collect f).get? k = some v → ∃ x, m.get? k = some x ∧ f k x = some v := by
    intro v hget
    rcases get?_foldl_cases hstep hget with hempty | ⟨row, hrow, rfl, hv⟩
    · cases hempty
    · exact ⟨row.2, mem_rows.mp hrow, hv⟩
  apply Option.ext
  intro v
  rw [Option.bind_eq_some_iff]
  refine ⟨hsound v, fun ⟨x, hx, hv⟩ => ?_⟩
  -- the row's key is taken, and by a value of this row
  have hsome : ((m.collect f).get? k).isSome = true := by
    refine isSome_get?_foldl (fun out row hout => ?_)
      (.inr ⟨(k, x), mem_rows.mpr hx, fun out => ?_⟩)
    · split
      · exact isSome_get?_put hout
      · exact hout
    · rw [hv, get?_put_self]
      rfl
  obtain ⟨w, hw⟩ := Option.isSome_iff_exists.mp hsome
  obtain ⟨y, hy, hfy⟩ := hsound w hw
  rw [hx] at hy
  cases hy
  rw [hw, ← hfy, hv]

end GoMap

end Goobers.Lib
