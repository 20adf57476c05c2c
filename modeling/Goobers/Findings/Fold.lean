import Goobers.Findings.Replay

/-!
# What a folded record carries

`fold` rewrites a verdict so that the record alone says what stands on its head. A replay reads
three parts of it, and each has its description here: the dispositions, which name the highest
generation of every id that was answered; the standing findings, the earlier instances that the
verdict leaves alone; and the instances that the record opens.
-/

namespace Goobers.Findings

open Lib List

variable {sum : Severity → FindingClass → String → String → List UInt8} {substantive : Substantive}

/-! ## Replacement in place -/

theorem exists_append_of_findIdx? {α : Type} {p : α → Bool} {i : Nat} : ∀ {l : List α},
    l.findIdx? p = some i →
      ∃ before x after, l = before ++ x :: after ∧ i = before.length ∧ p x = true ∧
        ∀ y ∈ before, p y = false
  | [], h => by simp at h
  | y :: l, h => by
    rw [findIdx?_cons] at h
    split_ifs at h with hy
    · injection h with h
      exact ⟨[], y, l, rfl, h.symm, hy, by simp⟩
    · obtain ⟨j, hj, hi⟩ := Option.map_eq_some_iff.mp h
      obtain ⟨before, x, after, hl, hlen, hx, hall⟩ := exists_append_of_findIdx? hj
      exact ⟨y :: before, x, after, by rw [hl]; rfl, by simp [← hi, hlen], hx,
        forall_mem_cons.mpr ⟨by simpa using hy, hall⟩⟩

/-! ## Dispositions -/

theorem answered_of_answersHere {next : Verdict} {f : Finding}
    (h : answersHere next f = true) : Answered next.dispositions f := by
  unfold answersHere at h
  rw [decide_eq_true_eq] at h
  have hstep : ∀ (m : GoMap String Nat) (d : FindingDisposition) (id : String) (g : Nat),
      GoMap.get? (if d.answers then m.put (trimSpace d.findingID) d.findingGeneration else m) id =
        some g → m.get? id = some g ∨
          (d.answers = true ∧ trimSpace d.findingID = id ∧ d.findingGeneration = g) := by
    intro m d id g hg
    split_ifs at hg with hans
    · rw [GoMap.get?_put] at hg
      split_ifs at hg with hid
      · injection hg with hg
        exact .inr ⟨hans, hid.symm, hg⟩
      · exact .inl hg
    · exact .inl hg
  rcases GoMap.get?_foldl_cases hstep h with h | h
  · cases h
  · exact h

/-- The dispositions merged so far, one for each finding. -/
structure Merges (ds out : List FindingDisposition) : Prop where
  sound : ∀ e ∈ out, trimSpace e.findingID = e.findingID ∧ e.answers = true ∧
    ∃ d ∈ ds, d.answers = true ∧ trimSpace d.findingID = e.findingID ∧
      d.findingGeneration = e.findingGeneration
  complete : ∀ d ∈ ds, d.answers = true →
    ∃ e ∈ out, e.findingID = trimSpace d.findingID ∧ d.findingGeneration ≤ e.findingGeneration
  nodup : (out.map FindingDisposition.findingID).Nodup

theorem merges_nil : Merges [] [] :=
  ⟨nofun, nofun, nodup_nil⟩

theorem answers_trimmed (d : FindingDisposition) :
    ({ d with findingID := trimSpace d.findingID } : FindingDisposition).answers = d.answers := by
  unfold FindingDisposition.answers
  simp

theorem mergeDispositions_cons (out : List FindingDisposition) (d : FindingDisposition)
    (next : List FindingDisposition) :
    mergeDispositions out (d :: next) = mergeDispositions (mergeDispositions out [d]) next := by
  simp [mergeDispositions]

theorem mergeDispositions_one {out : List FindingDisposition} {d e : FindingDisposition}
    (hd : d.answers = true) (he : e = { d with findingID := trimSpace d.findingID }) :
    ((∀ x ∈ out, x.findingID ≠ e.findingID) ∧ mergeDispositions out [d] = out ++ [e]) ∨
    (∃ before x after, out = before ++ x :: after ∧ x.findingID = e.findingID ∧
      x.findingGeneration ≤ e.findingGeneration ∧
      mergeDispositions out [d] = before ++ e :: after) ∨
    ((∃ x ∈ out, x.findingID = e.findingID ∧ e.findingGeneration ≤ x.findingGeneration) ∧
      mergeDispositions out [d] = out) := by
  have hgen : e.findingGeneration = d.findingGeneration := by rw [he]
  unfold mergeDispositions
  rw [foldl_cons, foldl_nil, if_neg (by simp [hd]), ← he]
  dsimp only
  cases hfind : out.findIdx? (fun x => decide (x.findingID = e.findingID)) with
  | none =>
    refine .inl ⟨fun x hx => ?_, rfl⟩
    simpa using findIdx?_eq_none_iff.mp hfind x hx
  | some i =>
    obtain ⟨before, x, after, hout, hi, hx, _⟩ := exists_append_of_findIdx? hfind
    rw [decide_eq_true_eq] at hx
    subst hout hi
    simp only [getElem?_append_right (Nat.le_refl _), Nat.sub_self, getElem?_cons_zero,
      Option.map_some, Option.getD_some, set_append_right _ _ (Nat.le_refl _)]
    split
    · exact .inr (.inl ⟨before, x, after, rfl, hx, by omega, rfl⟩)
    · exact .inr (.inr ⟨⟨x, by simp, hx, by omega⟩, rfl⟩)

namespace Merges

variable {ds out : List FindingDisposition}

theorem skip (h : Merges ds out) {d : FindingDisposition} (hd : d.answers = false) :
    Merges (ds ++ [d]) out := by
  refine ⟨fun e he => ?_, fun d' hd' hans => ?_, h.nodup⟩
  · obtain ⟨hid, hans, d', hd', hrest⟩ := h.sound e he
    exact ⟨hid, hans, d', mem_append_left _ hd', hrest⟩
  · rcases mem_append.mp hd' with hd' | hd'
    · exact h.complete d' hd' hans
    · rw [mem_singleton.mp hd', hd] at hans
      cases hans

/-- What one complete disposition may turn the list into: nothing but it is new, and no id is
named at a lower generation than before. -/
theorem extend (h : Merges ds out) {d : FindingDisposition} (hd : d.answers = true)
    {out' : List FindingDisposition}
    (hnew : ∀ e ∈ out', e ∈ out ∨ e = { d with findingID := trimSpace d.findingID })
    (hkept : ∀ e ∈ out, ∃ e' ∈ out', e'.findingID = e.findingID ∧
      e.findingGeneration ≤ e'.findingGeneration)
    (hnamed : ∃ e ∈ out', e.findingID = trimSpace d.findingID ∧
      d.findingGeneration ≤ e.findingGeneration)
    (hnodup : (out'.map FindingDisposition.findingID).Nodup) : Merges (ds ++ [d]) out' := by
  refine ⟨fun e he => ?_, fun d' hd' hans => ?_, hnodup⟩
  · rcases hnew e he with he | rfl
    · obtain ⟨hid, hans, d', hd', hrest⟩ := h.sound e he
      exact ⟨hid, hans, d', mem_append_left _ hd', hrest⟩
    · exact ⟨trimSpace_trimSpace _, (answers_trimmed d).trans hd, d, by simp, hd, rfl, rfl⟩
  · rcases mem_append.mp hd' with hd' | hd'
    · obtain ⟨e, he, hid, hle⟩ := h.complete d' hd' hans
      obtain ⟨e', he', hid', hle'⟩ := hkept e he
      exact ⟨e', he', hid'.trans hid, hle.trans hle'⟩
    · rw [mem_singleton.mp hd']
      exact hnamed

/-- Merging the dispositions one by one keeps the latest answer for each finding. -/
theorem merge_one (h : Merges ds out) (d : FindingDisposition) :
    Merges (ds ++ [d]) (mergeDispositions out [d]) := by
  cases hd : d.answers with
  | false =>
    have heq : mergeDispositions out [d] = out := by simp [mergeDispositions, hd]
    rw [heq]
    exact h.skip hd
  | true =>
    obtain ⟨e, he⟩ : ∃ e, e = { d with findingID := trimSpace d.findingID } := ⟨_, rfl⟩
    have hid : e.findingID = trimSpace d.findingID := by rw [he]
    have hgen : e.findingGeneration = d.findingGeneration := by rw [he]
    have hcases := @mergeDispositions_one out d e hd he
    -- appended, put in the place of an older one, or dropped for a newer one
    rcases hcases with
      ⟨hfresh, heq⟩ | ⟨before, x, after, hout, hx, hle, heq⟩ | ⟨⟨x, hx, hxid, hle⟩, heq⟩
    · rw [heq]
      refine h.extend hd ?_ ?_ ⟨e, by simp, hid, hgen.ge⟩ ?_
      · intro y hy
        rw [← he]
        simpa using hy
      · intro y hy
        exact ⟨y, mem_append_left _ hy, rfl, Nat.le_refl _⟩
      · rw [map_append, nodup_append]
        refine ⟨h.nodup, by simp, ?_⟩
        intro a ha b hb
        obtain ⟨y, hy, rfl⟩ := mem_map.mp ha
        rw [map_singleton, mem_singleton] at hb
        rw [hb]
        exact hfresh y hy
    · rw [heq]
      refine h.extend hd ?_ ?_ ⟨e, by simp, hid, hgen.ge⟩ ?_
      · intro y hy
        rw [← he, hout]
        simp only [mem_append, mem_cons] at hy ⊢
        rcases hy with hy | hy | hy
        · exact .inl (.inl hy)
        · exact .inr hy
        · exact .inl (.inr (.inr hy))
      · intro y hy
        rw [hout, mem_append, mem_cons] at hy
        rcases hy with hy | rfl | hy
        · exact ⟨y, by simp [hy], rfl, Nat.le_refl _⟩
        · exact ⟨e, by simp, hx.symm, hle⟩
        · exact ⟨y, by simp [hy], rfl, Nat.le_refl _⟩
      · -- the replaced entry had the same id
        have hids : (before ++ e :: after).map FindingDisposition.findingID =
            out.map FindingDisposition.findingID := by
          rw [hout]
          simp [hx]
        rw [hids]
        exact h.nodup
    · rw [heq]
      exact h.extend hd (fun y hy => .inl hy) (fun y hy => ⟨y, hy, rfl, Nat.le_refl _⟩)
        ⟨x, hx, hxid.trans hid, by omega⟩ h.nodup

theorem merge (h : Merges ds out) (next : List FindingDisposition) :
    Merges (ds ++ next) (mergeDispositions out next) := by
  induction next generalizing ds out with
  | nil =>
    rw [append_nil]
    exact h
  | cons d next ih =>
    rw [mergeDispositions_cons, append_cons]
    exact ih (h.merge_one d)

/-- The merged dispositions answer an instance that the dispositions answer, unless they name a
newer one too. -/
theorem answered_iff (h : Merges ds out) {f : Finding} : Answered out f ↔
    Answered ds f ∧ ∀ d ∈ ds, d.answers = true → trimSpace d.findingID = f.id →
      d.findingGeneration ≤ f.ledgerGeneration := by
  have huniq : ∀ e ∈ out, ∀ e' ∈ out, e.findingID = e'.findingID → e = e' := by
    intro e he e' he' hid
    exact inj_on_of_nodup_map h.nodup he he' hid
  constructor
  · intro ⟨e, he, _, hid, hgen⟩
    obtain ⟨htrim, _, d, hd, hans, hdid, hdgen⟩ := h.sound e he
    refine ⟨⟨d, hd, hans, by rw [hdid, ← htrim, hid], hdgen.trans hgen⟩, ?_⟩
    intro d' hd' hans' hid'
    obtain ⟨e', he', heid, hle⟩ := h.complete d' hd' hans'
    have heq : e' = e := huniq e' he' e he (by rw [heid, hid', ← htrim, hid])
    rw [heq, hgen] at hle
    exact hle
  · intro ⟨⟨d, hd, hans, hid, hgen⟩, hmax⟩
    obtain ⟨e, he, heid, hle⟩ := h.complete d hd hans
    obtain ⟨htrim, heans, d', hd', hans', hdid', hdgen'⟩ := h.sound e he
    have hle' := hmax d' hd' hans' (by rw [hdid', heid, hid])
    refine ⟨e, he, heans, by rw [htrim, heid, hid], by omega⟩

end Merges

def headDispositions (records : List Verdict) (head : String) : List FindingDisposition :=
  (records.filter (fun r => r.headSHA = head)).flatMap Verdict.dispositions

theorem dispositionsOn_merges (records : List Verdict) (head : String) :
    Merges (headDispositions records head) (dispositionsOn records head) := by
  induction records using reverseRecOn with
  | nil => exact merges_nil
  | append_singleton records record ih =>
    unfold dispositionsOn headDispositions at ih ⊢
    by_cases h : record.headSHA = head
    · simpa [h] using ih.merge record.dispositions
    · simpa [h] using ih

/-! ## Appending what is missing -/

theorem appendMissing_cons (fs : List Finding) (f : Finding) (extra : List Finding) :
    appendMissing sum fs (f :: extra) substantive =
      appendMissing sum (appendMissing sum fs [f] substantive) extra substantive := rfl

theorem lastRaised_appendMissing_one (fs : List Finding) (f : Finding) (id : String) :
    lastRaised sum substantive (appendMissing sum fs [f] substantive) id =
      (lastRaised sum substantive fs id).or (lastRaised sum substantive [f] id) := by
  -- findings of other ids do not matter to an id that `f` is raised under
  have hfresh : ∀ gs : List Finding, (∀ g ∈ gs, findingID sum g ≠ findingID sum f) →
      lastRaised sum substantive [f] id ≠ none → lastRaised sum substantive gs id = none := by
    intro gs hgs hf
    rw [← Option.isSome_iff_ne_none, lastRaised_isSome_iff] at hf
    obtain ⟨g, hg, _, hid⟩ := hf
    rw [mem_singleton.mp hg] at hid
    rw [← Option.not_isSome_iff_eq_none, lastRaised_isSome_iff]
    intro ⟨g', hg', _, hid'⟩
    exact hgs g' hg' (hid'.trans hid.symm)
  simp only [appendMissing, foldl_cons, foldl_nil]
  cases hfind : fs.findIdx? (fun g => decide (findingID sum g = findingID sum f)) with
  | none =>
    have hne : ∀ g ∈ fs, findingID sum g ≠ findingID sum f := by
      intro g hg
      simpa using findIdx?_eq_none_iff.mp hfind g hg
    rw [lastRaised_append]
    cases hf : lastRaised sum substantive [f] id with
    | none => simp
    | some x => rw [hfresh fs hne (by simp [hf])]; rfl
  | some i =>
    obtain ⟨before, g, after, hfs, hi, hg, hbefore⟩ := exists_append_of_findIdx? hfind
    rw [decide_eq_true_eq] at hg
    have hne : ∀ y ∈ before, findingID sum y ≠ findingID sum f := by
      intro y hy
      simpa using hbefore y hy
    subst hfs hi
    simp only [getElem?_append_right (Nat.le_refl _), Nat.sub_self, getElem?_cons_zero,
      Option.map_some, Option.getD_some, set_append_right _ _ (Nat.le_refl _),
      set_cons_zero, lastRaised_append, lastRaised_cons g after]
    split
    · -- the finding that is there does not block, so it counted for nothing
      rename_i hswap
      rw [Bool.and_eq_true, Bool.not_eq_true'] at hswap
      have hg : lastRaised sum substantive [g] id = none := by
        rw [lastRaised_singleton, if_neg (by simp [hswap.1])]
      rw [lastRaised_append, lastRaised_cons f after, hg]
      cases hf : lastRaised sum substantive [f] id with
      | none => simp
      | some x => rw [hfresh before hne (by simp [hf])]; simp
    · rename_i hkeep
      rw [lastRaised_append, lastRaised_cons g after]
      cases hf : lastRaised sum substantive [f] id with
      | none => simp
      | some x =>
        -- `f` blocks, so the finding that is there does
        obtain ⟨f', hf', hallow, hid, _⟩ := exists_of_lastRaised hf
        rw [mem_singleton.mp hf'] at hallow hid
        have hgallow : allows substantive g = true := by simpa [hallow] using hkeep
        rw [lastRaised_singleton g, if_pos ⟨hgallow, hg.trans hid⟩]
        cases lastRaised sum substantive after id <;> rfl

/-- A finding that is missing is appended, and one that is there is left alone. -/
theorem lastRaised_appendMissing {extra : List Finding}
    (huniq : ∀ f ∈ extra, ∀ g ∈ extra, findingID sum f = findingID sum g → f = g)
    (fs : List Finding) (id : String) :
    lastRaised sum substantive (appendMissing sum fs extra substantive) id =
      (lastRaised sum substantive fs id).or (lastRaised sum substantive extra id) := by
  induction extra generalizing fs with
  | nil => exact (Option.or_none).symm
  | cons f extra ih =>
    have huniq' : ∀ g ∈ extra, ∀ h ∈ extra, findingID sum g = findingID sum h → g = h :=
      fun g hg h hh => huniq g (mem_cons_of_mem f hg) h (mem_cons_of_mem f hh)
    rw [appendMissing_cons, ih huniq', lastRaised_appendMissing_one, lastRaised_cons f extra,
      Option.or_assoc]
    cases hf : lastRaised sum substantive [f] id with
    | none => simp
    | some x =>
      cases hextra : lastRaised sum substantive extra id with
      | none => rfl
      | some y =>
        -- both are the one finding of the id
        obtain ⟨f', hf', _, hid, hx⟩ := exists_of_lastRaised hf
        obtain ⟨g, hg, _, hgid, hy⟩ := exists_of_lastRaised hextra
        rw [mem_singleton] at hf'
        subst hf'
        have heq := huniq f' (by simp) g (mem_cons_of_mem f' hg) (hid.trans hgid.symm)
        rw [hx, hy, heq]

theorem lastRaised_eq_some_iff {fs : List Finding} (hid : ∀ f ∈ fs, IsID f.id)
    (huniq : ∀ f ∈ fs, ∀ g ∈ fs, f.id = g.id → f = g) {id : String} {f : Finding} :
    lastRaised sum substantive fs id = some f ↔
      f ∈ fs ∧ allows substantive f = true ∧ f.id = id := by
  have hself : ∀ g ∈ fs, findingID sum g = id → { g with id := id } = g := by
    intro g hg heq
    rw [← heq, findingID_eq (hid g hg)]
  constructor
  · intro h
    obtain ⟨g, hg, hallow, hgid, hf⟩ := exists_of_lastRaised h
    rw [hself g hg hgid] at hf
    rw [hf]
    exact ⟨hg, hallow, (findingID_eq (hid g hg)).symm.trans hgid⟩
  · intro ⟨hf, hallow, hfid⟩
    have hsome : (lastRaised sum substantive fs id).isSome :=
      lastRaised_isSome_iff.mpr ⟨f, hf, hallow, (findingID_eq (hid f hf)).trans hfid⟩
    obtain ⟨g', hg'⟩ := Option.isSome_iff_exists.mp hsome
    obtain ⟨g, hg, _, hgid, heq⟩ := exists_of_lastRaised hg'
    rw [hself g hg hgid] at heq
    have hsame : f = g := huniq f hf g hg (by rw [hfid, ← hgid, findingID_eq (hid g hg)])
    rw [hg', heq, hsame]

/-! ## The folded record -/

section folded

variable {prior : List Verdict} {next : Verdict} {f : Finding} {id : String}

theorem mem_ownRaised : id ∈ ownRaised sum next substantive ↔
    next.decision ≠ .pass ∧ (lastRaised sum substantive next.findings id).isSome := by
  unfold ownRaised
  rw [lastRaised_isSome_iff]
  split_ifs with hpass
  · simp [and_assoc, hpass]
  · simp [hpass]

theorem mem_standingAfter : f ∈ standingAfter sum prior next substantive ↔
    f ∈ outstanding sum prior next.headSHA substantive ∧ answersHere next f = false ∧
      raisesAgain sum next substantive f = false := by
  unfold standingAfter
  rw [mem_filter, Bool.and_eq_true, Bool.not_eq_true', Bool.not_eq_true']

theorem isID_of_mem_standingAfter (h : f ∈ standingAfter sum prior next substantive) :
    IsID f.id :=
  isID_of_openInstance (mem_outstanding.mp (mem_standingAfter.mp h).1)

theorem standingAfter_unique {g : Finding} (hf : f ∈ standingAfter sum prior next substantive)
    (hg : g ∈ standingAfter sum prior next substantive) (h : f.id = g.id) : f = g :=
  outstanding_unique (mem_standingAfter.mp hf).1 (mem_standingAfter.mp hg).1 h

theorem lastRaised_standingAfter :
    lastRaised sum substantive (standingAfter sum prior next substantive) id = some f ↔
      f ∈ standingAfter sum prior next substantive ∧ allows substantive f = true ∧ f.id = id :=
  lastRaised_eq_some_iff (fun _ h => isID_of_mem_standingAfter h)
    (fun _ hf _ hg h => standingAfter_unique hf hg h)

variable (sum substantive) in
/-- The verdict's own findings that a replay of the folded record looks at. A pass has none,
unless a standing finding turns it into needs-changes: then the notes of other ids count. -/
def foldedFindings (prior : List Verdict) (next : Verdict) : List Finding :=
  if next.decision ≠ .pass then next.findings
  else if standingAfter sum prior next substantive ≠ [] ∧ next.synthesized = false then
    next.findings.filter (fun f =>
      findingID sum f ∉ (standingAfter sum prior next substantive).map Finding.id)
  else []

theorem fold_dispositions (h : next.headSHA ≠ "") :
    (fold sum prior next substantive).1.dispositions =
      (mergeDispositions (dispositionsOn prior next.headSHA) next.dispositions).filter
        (fun d => d.findingID ∉ ownRaised sum next substantive ++
          (standingAfter sum prior next substantive).map Finding.id) := by
  unfold fold
  rw [if_neg h]
  dsimp only
  split_ifs <;> rfl

@[simp] theorem fold_headSHA : (fold sum prior next substantive).1.headSHA = next.headSHA := by
  unfold fold
  dsimp only
  split_ifs <;> rfl

@[simp] theorem fold_ledgerGeneration :
    (fold sum prior next substantive).1.ledgerGeneration = next.ledgerGeneration := by
  unfold fold
  dsimp only
  split_ifs <;> rfl

/-- What the folded verdict opens under an id: its own finding, or the one carried over. -/
theorem opens_fold (h : next.headSHA ≠ "") :
    (fold sum prior next substantive).1.opens sum substantive id =
      (lastRaised sum substantive (foldedFindings sum substantive prior next) id).or
        (lastRaised sum substantive (standingAfter sum prior next substantive) id) := by
  -- the standing findings are in the record twice, and the second time changes nothing
  have happend : ∀ fs : List Finding,
      (lastRaised sum substantive
        (appendMissing sum fs (standingAfter sum prior next substantive) substantive) id).or
        (lastRaised sum substantive (standingAfter sum prior next substantive) id) =
      (lastRaised sum substantive fs id).or
        (lastRaised sum substantive (standingAfter sum prior next substantive) id) := by
    intro fs
    rw [lastRaised_appendMissing, Option.or_assoc, Option.or_self]
    intro f hf g hg heq
    rw [findingID_eq (isID_of_mem_standingAfter hf), findingID_eq (isID_of_mem_standingAfter hg)]
      at heq
    exact standingAfter_unique hf hg heq
  unfold fold foldedFindings
  rw [if_neg h]
  dsimp only
  by_cases hpass : next.decision = .pass
  · have hown : ownRaised sum next substantive = [] := by simp [ownRaised, hpass]
    rw [hown, if_neg (not_not.mpr hpass)]
    by_cases hdown : standingAfter sum prior next substantive ≠ [] ∧ next.synthesized = false
    · rw [if_pos ⟨hdown.1, by simp [hdown.2], .inl hpass⟩, if_pos hpass, if_pos hdown]
      unfold Verdict.opens
      exact happend _
    · rw [if_neg (fun hc => hdown ⟨hc.1, by simpa using hc.2.1⟩), if_neg hdown]
      unfold Verdict.opens
      rw [if_neg (not_not.mpr hpass)]
      rfl
  · split_ifs
    · unfold Verdict.opens
      rw [if_pos hpass]
      exact happend _
    · unfold Verdict.opens
      rw [if_pos hpass]

theorem openInstance_fold_alone (h : next.headSHA ≠ "") :
    openInstance sum substantive [(fold sum prior next substantive).1] next.headSHA id =
      (fold sum prior next substantive).1.opens sum substantive id := by
  unfold openInstance
  rw [replay_singleton h fold_headSHA, Ledger.get?_apply Ledger.ok_empty]
  exact Option.or_none

/-- The instances of the earlier records that the folded record's dispositions close. -/
theorem answered_fold_iff (h : next.headSHA ≠ "") :
    Answered (fold sum prior next substantive).1.dispositions f ↔
      f.id ∉ ownRaised sum next substantive ∧
      f.id ∉ (standingAfter sum prior next substantive).map Finding.id ∧
      Answered (headDispositions prior next.headSHA ++ next.dispositions) f ∧
      ∀ d ∈ headDispositions prior next.headSHA ++ next.dispositions, d.answers = true →
        trimSpace d.findingID = f.id → d.findingGeneration ≤ f.ledgerGeneration := by
  have hmerges := (dispositionsOn_merges prior next.headSHA).merge next.dispositions
  rw [← hmerges.answered_iff, fold_dispositions h]
  unfold Answered
  simp only [mem_filter, decide_eq_true_eq, mem_append, not_or]
  constructor
  · rintro ⟨d, ⟨hd, hown, hstanding⟩, hcloses⟩
    have hid : d.findingID = f.id := (hmerges.sound d hd).1.symm.trans hcloses.2.1
    rw [hid] at hown hstanding
    exact ⟨hown, hstanding, d, hd, hcloses⟩
  · rintro ⟨hown, hstanding, d, hd, hcloses⟩
    have hid : d.findingID = f.id := (hmerges.sound d hd).1.symm.trans hcloses.2.1
    refine ⟨d, ⟨hd, ?_, ?_⟩, hcloses⟩
    · rw [hid]
      exact hown
    · rw [hid]
      exact hstanding

end folded

end Goobers.Findings
