import Goobers.ReadService.InstanceFold
import Goobers.Journal.RetentionPass
import Goobers.Journal.TextCodec

/-!
# Retention against what a restart reads

A retention pass picks its checkpoints by position: the last scheduled trigger of a
workflow, the last report of a worker, the record that decides a check, the authority
with the highest number. A restart takes the latest fire by time, folds only the valid
records of a check, and takes the last authority of the log.

The worker reports and the init completion agree on every log. For the others this
module says on which logs they do (`RetentionSafe`), and that they differ on every
other one.
-/

namespace Goobers.ReadService

open Lib Journal List InstanceState Checkpoints CompactRecord

variable {p : Event × Nat}

/-! ## Decisive records under retention -/

section decisive
variable {α β : Type} {outcome : α → String}

theorem lastDefinite_map (f : β → α) (l : List β) :
    lastDefinite outcome (l.map f) = (lastDefinite (outcome ∘ f) l).map f := by
  unfold lastDefinite
  rw [filter_map, getLast?_map]
  rfl

theorem decisive_map (f : β → α) (l : List β) :
    decisive outcome (l.map f) = (decisive (outcome ∘ f) l).map f := by
  unfold decisive
  rw [lastDefinite_map]
  cases lastDefinite (outcome ∘ f) l with
  | none => exact getLast?_map
  | some x =>
    simp only [Option.map_some, Function.comp_apply]
    split
    · rfl
    · exact getLast?_map

theorem decisive_eq_none_iff {l : List α} : decisive outcome l = none ↔ l = [] := by
  constructor
  · intro h
    rcases eq_nil_or_concat l with rfl | ⟨l, x, rfl⟩
    · rfl
    rw [concat_eq_append, decisive_concat] at h
    split at h
    · rename_i hkept
      rw [h] at hkept
      simp at hkept
    · cases h
  · rintro rfl
    rfl

variable {all : List α} {valid old : α → Bool} {s m : α}

/-- Dropping invalid records changes the decisive one only between a warning and a failure. -/
theorem decisive_differ (hnodup : all.Nodup) (hs : decisive outcome (all.filter valid) = some s)
    (hm : decisive outcome all = some m) (hvalid : valid m = true) (hne : s ≠ m) :
    (outcome s = "warn" ∧ outcome m = "fail") ∨ (outcome m = "warn" ∧ outcome s = "fail") := by
  obtain ⟨before, after, rfl⟩ := append_of_mem (decisive_mem hm)
  have hafter : m ∉ after := (nodup_cons.mp (nodup_append.mp hnodup).2.1).1
  have hmem := (mem_filter.mp (decisive_mem hs)).1
  rcases mem_append.mp hmem with hbefore | hrest
  · right
    have hsvalid := (mem_filter.mp (decisive_mem hs)).2
    obtain ⟨first, between, hsplit⟩ := append_of_mem (mem_filter.mpr ⟨hbefore, hsvalid⟩)
    have hlist : (before ++ m :: after).filter valid =
        first ++ s :: (between ++ m :: after.filter valid) := by
      rw [filter_append, hsplit, filter_cons_of_pos hvalid]
      simp
    have hnodup' := hnodup.filter valid
    rw [hlist] at hs hnodup'
    have hsnot := (nodup_cons.mp (nodup_append.mp hnodup').2.1).1
    exact warn_of_after_decisive hs hsnot (mem_append_right _ mem_cons_self)
  · left
    rcases mem_cons.mp hrest with rfl | hrest
    · exact absurd rfl hne
    · exact warn_of_after_decisive hm hafter hrest

theorem eq_of_decisive (hnodup : all.Nodup) (hs : decisive outcome (all.filter valid) = some s)
    (hm : decisive outcome all = some m) (hvalid : valid m = true) (hout : outcome m = outcome s) :
    s = m := by
  by_contra hne
  rcases decisive_differ hnodup hs hm hvalid hne with h | h
  · simp [hout, h.1] at h
  · simp [hout, h.2] at h

theorem decisive_all_warn (hnodup : all.Nodup)
    (hs : decisive outcome (all.filter valid) = some s) (hwarn : outcome s = "warn")
    (hm : decisive outcome all = some m) (hvalid : valid m = true) : outcome m = "warn" := by
  by_contra hdef
  have hne : s ≠ m := fun h => hdef (h ▸ hwarn)
  have hfail : outcome m = "fail" := by
    rcases decisive_differ hnodup hs hm hvalid hne with h | h
    · exact h.2
    · exact absurd h.1 hdef
  -- nothing definite follows `m`, so it is the last definite valid record and decides them
  obtain ⟨before, after, rfl⟩ := append_of_mem (decisive_mem hm)
  have hafter : m ∉ after := (nodup_cons.mp (nodup_append.mp hnodup).2.1).1
  have hlast : lastDefinite outcome ((before ++ m :: after).filter valid) = some m := by
    have hnone : (after.filter valid).filter (fun x => outcome x ≠ "warn") = [] := by
      rw [filter_eq_nil_iff]
      intro x hx
      have := (warn_of_after_decisive hm hafter (mem_filter.mp hx).1).1
      simp [this]
    unfold lastDefinite
    rw [filter_append, filter_cons_of_pos hvalid, filter_append,
      filter_cons_of_pos (by simp [hfail]), hnone]
    simp
  rw [decisive_of_fail hlast hfail] at hs
  exact hne (Option.some.inj hs).symm

/-- The records kept: those that are not old, and the decisive one. -/
def keepDecisive [DecidableEq α] (outcome : α → String) (all : List α) (old : α → Bool) (x : α) :
    Bool :=
  !old x || decisive outcome all = some x

/--
**The valid records that are kept decide as all of them do** exactly if the record
that decides is kept and, where it is a warning, no failure comes up again because
the records that answered it are gone.
-/
theorem decisive_kept_iff [DecidableEq α] (hnodup : all.Nodup) {value : α → β}
    (hvalue : ∀ x ∈ all.filter valid, ∀ y ∈ all.filter valid, value x = value y →
      old x = old y ∧ outcome x = outcome y)
    (hs : decisive outcome (all.filter valid) = some s) :
    (decisive outcome ((all.filter valid).filter (keepDecisive outcome all old))).map value =
        some (value s) ↔
      (old s = false ∨ decisive outcome all = some s) ∧
        (outcome s = "warn" → ∀ x,
          lastDefinite outcome ((all.filter valid).filter (fun x => !old x)) = some x →
            outcome x ≠ "fail") := by
  have hsmem := decisive_mem hs
  -- a kept definite record is not old if a warning decides
  have hdefinite : outcome s = "warn" →
      lastDefinite outcome ((all.filter valid).filter (keepDecisive outcome all old)) =
        lastDefinite outcome ((all.filter valid).filter (fun x => !old x)) := by
    intro hwarn
    unfold lastDefinite
    simp only [filter_filter]
    congr 1
    refine filter_congr fun x _ => ?_
    by_cases hx : valid x = true ∧ outcome x ≠ "warn"
    · have : decisive outcome all ≠ some x := fun h =>
        hx.2 (decisive_all_warn hnodup hs hwarn h hx.1)
      simp [keepDecisive, this]
    · by_cases hx' : outcome x = "warn"
      · simp [hx']
      · have : valid x = false := by simpa [hx'] using hx
        simp [this]
  constructor
  · intro hsame
    obtain ⟨s', hs', hval⟩ := Option.map_eq_some_iff.mp hsame
    have hs'mem := mem_filter.mp (decisive_mem hs')
    obtain ⟨hold, hout⟩ := hvalue s' hs'mem.1 s hsmem hval
    constructor
    · by_contra hgone
      have hold_s : old s = true := by
        cases h : old s
        · exact absurd (.inl h) hgone
        · rfl
      have hdec : decisive outcome all = some s' := by
        have := hs'mem.2
        rw [keepDecisive, hold, hold_s] at this
        simpa using this
      have heq := eq_of_decisive hnodup hs hdec (mem_filter.mp hs'mem.1).2 hout
      exact hgone (.inr (heq ▸ hdec))
    · intro hwarn x hx hfail
      rw [← hdefinite hwarn] at hx
      rw [decisive_of_fail hx hfail] at hs'
      obtain rfl := Option.some.inj hs'
      rw [hfail] at hout
      rw [← hout] at hwarn
      simp at hwarn
  · rintro ⟨hkept, hrecovery⟩
    have hkeep : keepDecisive outcome all old s = true := by
      rcases hkept with h | h <;> simp [keepDecisive, h]
    suffices hdec :
        decisive outcome ((all.filter valid).filter (keepDecisive outcome all old)) = some s by
      rw [hdec]
      rfl
    by_cases hfail : outcome s = "fail"
    · refine decisive_of_fail ?_ hfail
      have hlast := lastDefinite_of_decisive hs (by simp [hfail])
      unfold lastDefinite at hlast ⊢
      rw [filter_comm, getLast?_filter_eq_some hlast hkeep]
    · have hlast : (all.filter valid).getLast? = some s := by
        by_cases hf : ∃ y, lastDefinite outcome (all.filter valid) = some y ∧ outcome y = "fail"
        · obtain ⟨y, hy, hyfail⟩ := hf
          rw [decisive_of_fail hy hyfail] at hs
          exact absurd (Option.some.inj hs ▸ hyfail) hfail
        · rwa [decisive_of_not_fail (fun y hy hyfail => hf ⟨y, hy, hyfail⟩)] at hs
      have hlast' :
          ((all.filter valid).filter (keepDecisive outcome all old)).getLast? = some s :=
        getLast?_filter_eq_some hlast hkeep
      rw [decisive_of_not_fail, hlast']
      intro x hx
      by_cases hwarn : outcome s = "warn"
      · exact hrecovery hwarn x (hdefinite hwarn ▸ hx)
      obtain ⟨l, hl⟩ := getLast?_eq_some_iff.mp hlast'
      rw [hl, lastDefinite_concat hwarn] at hx
      exact Option.some.inj hx ▸ hfail

end decisive

/-! ## What a pass keeps, by position -/

def checkpoints (events : List Event) : Checkpoints :=
  events.zipIdx.foldl (fun cp p => cp.record p.2 p.1) {}

/-- The record is older than the cutoff; without one nothing is. -/
def aged (keepAfter : Int) (ev : Event) : Bool := keepAfter ≠ 0 && ev.time < keepAfter

/-- The records kept, with their places. -/
def keptAt (keepAfter keepRunStartsAfter : Int) (events : List Event) (p : Event × Nat) : Bool :=
  !(checkpoints events).drops keepAfter keepRunStartsAfter p.2 p.1

def survivors (keepAfter keepRunStartsAfter : Int) (events : List Event) : List Event :=
  (events.zipIdx.filter (keptAt keepAfter keepRunStartsAfter events)).map Prod.fst

theorem recordAll_eq (records : List CompactRecord) (start : Nat) (cp : Checkpoints) :
    recordAll cp start records =
      ((records.map event).zipIdx start).foldl
        (fun cp p => cp.record p.2 p.1) cp := by
  induction records generalizing start cp with
  | nil => rfl
  | cons r records ih =>
    rw [recordAll, ih]
    rfl

def keptRecords (keepAfter keepRunStartsAfter : Int) (records : List CompactRecord) :
    List CompactRecord :=
  (records.zipIdx.filter (fun p => keptAt keepAfter keepRunStartsAfter
    (records.map CompactRecord.event) (p.1.event, p.2))).map Prod.fst

theorem keptLines_eq_keptRecords (keepAfter keepRunStartsAfter : Int)
    (records : List CompactRecord) :
    keptLines (recordAll {} 0 records) keepAfter keepRunStartsAfter 0 records =
      (keptRecords keepAfter keepRunStartsAfter records).map line := by
  rw [keptLines_eq_filter, recordAll_eq]
  rfl

theorem survivors_eq_keptRecords (keepAfter keepRunStartsAfter : Int)
    (records : List CompactRecord) :
    survivors keepAfter keepRunStartsAfter (records.map event) =
      (keptRecords keepAfter keepRunStartsAfter records).map event := by
  unfold survivors keptRecords
  rw [zipIdx_map, filter_map, map_map, map_map]
  rfl

section
variable {unmarshal : Bytes → Option Event} {data compacted : Bytes} {events : List Event}
  {keepAfter keepRunStartsAfter : Int}

theorem readEvents_compacted
    (hjson : ∀ text ev, unmarshal text = some ev → text.head? ≠ some 0) {torn : Nat}
    {result : InstanceEventsCompaction} (hread : readEvents unmarshal data = .ok (events, torn))
    (hpass : compactInstanceEventsData unmarshal data keepAfter keepRunStartsAfter =
      .ok (result, compacted)) :
    readEvents unmarshal compacted =
      .ok (survivors keepAfter keepRunStartsAfter events, torn) := by
  obtain ⟨records, hrecords, heq⟩ := ok_of_map_eq compactInstanceEventsData_eq hpass
  dsimp only at heq
  rw [keptLines_eq_keptRecords, length_map] at heq
  have hsub : (keptRecords keepAfter keepRunStartsAfter records).Sublist records :=
    zipIdx_filter_sublist records _
  have hafter := readEvents_rewritten hjson hread hrecords hsub.subset
    (records.length - (keptRecords keepAfter keepRunStartsAfter records).length)
  rw [heq] at hafter
  rw [hafter, ← compactRecords_events hjson hread hrecords, survivors_eq_keptRecords]
  split_ifs with hdropped
  · rw [hsub.eq_of_length_le (Nat.le_of_sub_eq_zero hdropped)]
  · rfl

end

/-! ## The checkpoints -/

section
variable (events : List Event)

theorem lastPlace_eq {key : Event → String} {k : String} (view : Checkpoints → Option Nat)
    (hinit : view {} = none) (hstep : ∀ cp (p : Event × Nat),
      view (cp.record p.2 p.1) = if key p.1 = k then some p.2 else view cp) :
    view (checkpoints events) =
      (events.zipIdx.filter (fun p => key p.1 = k)).getLast?.map Prod.snd := by
  have hfold := foldl_view (fun cp p => cp.record p.2 p.1) view
    (fun p : Event × Nat => key p.1 = k) (fun _ p => some p.2)
    (fun cp p => by simpa using hstep cp p) events.zipIdx {}
  refine hfold.trans ((foldl_overwrite _ _ _).trans ?_)
  rw [hinit]
  cases (events.zipIdx.filter (fun p => key p.1 = k)).getLast? <;> rfl

theorem latestTrigger_eq {key : String} (hkey : key ≠ "") :
    (checkpoints events).latestTrigger.get? key =
      (events.zipIdx.filter (fun p => triggerKey p.1 = key)).getLast?.map Prod.snd := by
  refine lastPlace_eq events (fun cp => cp.latestTrigger.get? key) rfl fun cp p => ?_
  simp only [record]
  by_cases hnil : triggerKey p.1 = ""
  · rw [if_pos hnil, if_neg (fun h => hkey (h.symm.trans hnil))]
  · rw [if_neg hnil, GoMap.get?_put]
    simp [eq_comm]

theorem latestWorkerDivergence_eq (worker : String) :
    (checkpoints events).latestWorkerDivergence.get? worker =
      (events.zipIdx.filter (fun p => compactWorkerDivergenceKey p.1 = worker)).getLast?.map
        Prod.snd := by
  refine lastPlace_eq events (fun cp => cp.latestWorkerDivergence.get? worker) rfl fun cp p => ?_
  simp only [record]
  rw [GoMap.get?_put]
  simp [eq_comm]

def outcomeAt (p : Event × Nat) : String := checkOutcome p.1

theorem latestClusterCheck_eq {check : String} (hcheck : check ≠ "") :
    (checkpoints events).latestClusterCheck.get? check =
      (decisive outcomeAt (events.zipIdx.filter (fun p => clusterCheckKey p.1 = check))).map
        (fun p => (p.2, checkOutcome p.1)) := by
  have hfold := foldl_view (fun cp p => cp.record p.2 p.1)
    (fun cp : Checkpoints => cp.latestClusterCheck.get? check)
    (fun p : Event × Nat => clusterCheckKey p.1 = check)
    (fun latest p =>
      if checkOutcome p.1 = "warn" ∧ latest.map Prod.snd = some "fail" then latest
      else some (p.2, checkOutcome p.1))
    ?_ events.zipIdx {}
  · refine hfold.trans ((foldl_decisive (fun p _ => rfl)).trans ?_)
    exact (Option.map_eq_bind).symm
  · intro cp p
    simp only [record, decide_eq_true_eq]
    unfold recordClusterCheck
    by_cases hnil : clusterCheckKey p.1 = ""
    · rw [if_pos hnil, if_neg (fun h => hcheck (h.symm.trans hnil))]
    rw [if_neg hnil]
    by_cases hkey : clusterCheckKey p.1 = check
    · subst hkey
      rw [if_pos rfl]
      unfold checkOutcome
      split
      · rfl
      · exact GoMap.get?_put_self _ _ _
    · split
      · rfl
      · exact GoMap.get?_put_of_ne _ (Ne.symm hkey) _

/-- One authority after another: the highest number, the later of equal ones. -/
def newerAuthority (latest : Option (Nat × Nat)) (p : Event × Nat) : Option (Nat × Nat) :=
  Checkpoints.recordConfigAuthority latest p.1 p.2

/-- The authorities of the log, with their places. -/
def authorities : List (Event × Nat) :=
  events.zipIdx.filter (fun p => isConfigGenerationAuthority p.1)

theorem latestConfigAuthority_eq :
    (checkpoints events).latestConfigAuthority =
      (authorities events).foldl newerAuthority none := by
  refine foldl_view (fun cp p => cp.record p.2 p.1) latestConfigAuthority
    (fun p => isConfigGenerationAuthority p.1) newerAuthority (fun cp p => ?_) events.zipIdx {}
  simp only [record]
  split_ifs with hother
  · rfl
  exact if_neg hother

variable {events}

theorem newerAuthority_of_authority (h : isConfigGenerationAuthority p.1 = true)
    (latest : Option (Nat × Nat)) : newerAuthority latest p =
      match latest with
      | none => some (p.2, p.1.seq)
      | some (i, seq) => if seq ≤ p.1.seq then some (p.2, p.1.seq) else some (i, seq) := by
  exact if_pos h

theorem newerAuthority_spec {l : List (Event × Nat)}
    (hauth : ∀ p ∈ l, isConfigGenerationAuthority p.1 = true) {index seq : Nat}
    (h : l.foldl newerAuthority none = some (index, seq)) :
    (∃ p ∈ l, p.2 = index ∧ p.1.seq = seq) ∧ ∀ p ∈ l, p.1.seq ≤ seq := by
  -- on the list from its end, whose last record is compared with the newest of the rest
  induction l using reverseRecOn generalizing index seq with
  | nil => cases h
  | append_singleton l q ih =>
    have hl : ∀ p ∈ l, isConfigGenerationAuthority p.1 = true :=
      fun p hp => hauth p (mem_append_left _ hp)
    rw [foldl_concat, newerAuthority_of_authority (hauth q (by simp))] at h
    cases hfold : l.foldl newerAuthority none with
    | none =>
      rw [hfold] at h
      cases h
      have hnil : l = [] := by
        rcases eq_nil_or_concat l with rfl | ⟨l', x, rfl⟩
        · rfl
        rw [concat_eq_append, foldl_concat,
          newerAuthority_of_authority (hl x (by simp))] at hfold
        split at hfold
        · cases hfold
        · split at hfold <;> cases hfold
      subst hnil
      exact ⟨⟨q, by simp⟩, by simp⟩
    | some latest =>
      obtain ⟨⟨p, hp, hpi, hps⟩, hle⟩ := ih hl hfold
      rw [hfold] at h
      dsimp only at h
      split_ifs at h with hnew
      · cases h
        exact ⟨⟨q, by simp⟩, forall_mem_append.mpr
          ⟨fun r hr => (hle r hr).trans hnew, forall_mem_singleton.mpr le_rfl⟩⟩
      · cases h
        exact ⟨⟨p, mem_append_left _ hp, hpi, hps⟩, forall_mem_append.mpr
          ⟨hle, forall_mem_singleton.mpr (by omega)⟩⟩

/-! ## Places -/

theorem zipIdx_ext {q : Event × Nat} (hp : p ∈ events.zipIdx) (hq : q ∈ events.zipIdx)
    (h : p.2 = q.2) : p = q := by
  rw [mem_zipIdx_iff_getElem?] at hp hq
  rw [h, hq] at hp
  exact Prod.ext (Option.some.inj hp).symm h

theorem nodup_zipIdx (events : List Event) : events.zipIdx.Nodup := by
  refine List.Nodup.of_map Prod.snd ?_
  rw [zipIdx_map_snd]
  exact nodup_range'

theorem filter_zipIdx (p : Event → Bool) :
    (events.zipIdx.filter (fun q => p q.1)).map Prod.fst = events.filter p := by
  have h := filter_map (f := Prod.fst) (p := p) (l := events.zipIdx)
  rw [zipIdx_map_fst] at h
  exact h.symm

section
variable {keepAfter keepRunStartsAfter : Int}

theorem filter_survivors (p : Event → Bool) :
    (survivors keepAfter keepRunStartsAfter events).filter p =
      ((events.zipIdx.filter (fun q => p q.1)).filter
        (keptAt keepAfter keepRunStartsAfter events)).map Prod.fst := by
  unfold survivors
  rw [filter_map, filter_comm]
  rfl

theorem mem_survivors {ev : Event} :
    ev ∈ survivors keepAfter keepRunStartsAfter events ↔
      ∃ i, (ev, i) ∈ events.zipIdx ∧ keptAt keepAfter keepRunStartsAfter events (ev, i) = true := by
  simp [survivors]

/-- The records a compaction keeps: young ones and the latest of each kind. -/
theorem keptAt_iff : keptAt keepAfter keepRunStartsAfter events p = true ↔
      aged keepAfter p.1 = false ∨
        (triggerKey p.1 ≠ "" ∧
          (checkpoints events).latestTrigger.get? (triggerKey p.1) = some p.2) ∨
        (compactWorkerDivergenceKey p.1 ≠ "" ∧
          (checkpoints events).latestWorkerDivergence.get? (compactWorkerDivergenceKey p.1) =
            some p.2) ∨
        (clusterCheckKey p.1 ≠ "" ∧
          ((checkpoints events).latestClusterCheck.get? (clusterCheckKey p.1)).map Prod.fst =
            some p.2) ∨
        (checkpoints events).latestConfigAuthority.map Prod.fst = some p.2 ∨
        (p.1.type = .runStarted ∧
          (keepRunStartsAfter = 0 ∨ ¬ p.1.time < keepRunStartsAfter)) ∨
        p.1.type = .initCompleted := by
  unfold keptAt drops compactDropsAgedRecord aged
  simp only [Bool.and_eq_false_iff, Bool.or_eq_true, Bool.and_eq_true, decide_eq_true_eq,
    decide_eq_false_iff_not, Bool.not_eq_eq_eq_not, Bool.not_true, Bool.not_false]
  tauto

theorem isAuthority_of_latest (hp : p ∈ events.zipIdx)
    (h : (checkpoints events).latestConfigAuthority.map Prod.fst = some p.2) :
    p ∈ authorities events ∧ ∀ q ∈ authorities events, q.1.seq ≤ p.1.seq := by
  obtain ⟨⟨index, seq⟩, hlatest, hindex⟩ := Option.map_eq_some_iff.mp h
  rw [latestConfigAuthority_eq] at hlatest
  obtain ⟨⟨q, hq, hqi, hqs⟩, hle⟩ :=
    newerAuthority_spec (fun q hq => (mem_filter.mp hq).2) hlatest
  obtain rfl := zipIdx_ext (mem_filter.mp hq).1 hp (hqi.trans hindex)
  exact ⟨hq, fun r hr => hqs ▸ hle r hr⟩

theorem latest_of_last_authority {q : Event × Nat} (hlast : (authorities events).getLast? = some q)
    (hle : ∀ p ∈ authorities events, p.1.seq ≤ q.1.seq) :
    (checkpoints events).latestConfigAuthority.map Prod.fst = some q.2 := by
  rw [latestConfigAuthority_eq]
  obtain ⟨l, hl⟩ := getLast?_eq_some_iff.mp hlast
  have hauth : ∀ p ∈ authorities events, isConfigGenerationAuthority p.1 = true :=
    fun p hp => (mem_filter.mp hp).2
  rw [hl] at hle hauth ⊢
  rw [foldl_concat, newerAuthority_of_authority (hauth q (by simp))]
  split
  · rfl
  rename_i i seq hfold
  obtain ⟨⟨p, hp, -, hps⟩, -⟩ :=
    newerAuthority_spec (fun p hp => hauth p (mem_append_left _ hp)) hfold
  rw [if_pos (hps ▸ hle p (mem_append_left _ hp))]
  rfl

/-! ## The parts of the state -/

theorem survivors_workerDivergence (parseTime : String → Option Int) (worker : String) :
    (ofLog parseTime
        (survivors keepAfter keepRunStartsAfter events)).workerDivergence.get? worker =
      (ofLog parseTime events).workerDivergence.get? worker := by
  rw [workerDivergence_eq, workerDivergence_eq, filter_survivors,
    getLast?_map, getLast?_filter_of_last, ← getLast?_map, filter_zipIdx]
  intro p hp
  have hmem := mem_filter.mp (mem_of_getLast? hp)
  have hreports : reportsOn worker p.1 = true := hmem.2
  have hkey : compactWorkerDivergenceKey p.1 ≠ "" := by
    intro hnil
    simp [reportsOn, hnil] at hreports
  refine keptAt_iff.mpr (.inr (.inr (.inl ⟨hkey, ?_⟩)))
  -- the reports of this worker are among those on the other one, and the last of these is `p`
  have hsub : events.zipIdx.filter (fun q =>
      compactWorkerDivergenceKey q.1 = compactWorkerDivergenceKey p.1) =
      (events.zipIdx.filter (fun q => reportsOn worker q.1)).filter (fun q =>
        compactWorkerDivergenceKey q.1 = compactWorkerDivergenceKey p.1) := by
    rw [filter_filter]
    refine filter_congr fun q _ => ?_
    by_cases hq : compactWorkerDivergenceKey q.1 = compactWorkerDivergenceKey p.1
    · have hsame : reportsOn worker q.1 = true := by
        unfold reportsOn at hreports ⊢
        rwa [hq]
      simp [hsame]
    · simp [hq]
  rw [latestWorkerDivergence_eq, hsub, getLast?_filter_eq_some hp (by simp)]
  rfl

theorem survivors_initCompletedAt (parseTime : String → Option Int) :
    (ofLog parseTime
        (survivors keepAfter keepRunStartsAfter events)).initCompletedAt =
      (ofLog parseTime events).initCompletedAt := by
  rw [initCompletedAt_eq, initCompletedAt_eq events, filter_survivors]
  have hall : (events.zipIdx.filter (fun q => decide (q.1.type = .initCompleted))).filter
      (keptAt keepAfter keepRunStartsAfter events) =
        events.zipIdx.filter (fun q => decide (q.1.type = .initCompleted)) := by
    rw [filter_eq_self]
    intro p hp
    have htype : p.1.type = .initCompleted := by simpa using (mem_filter.mp hp).2
    exact keptAt_iff.mpr (by simp [htype])
  rw [hall, filter_zipIdx (fun ev => decide (ev.type = .initCompleted))]

def AuthorityKept (keepAfter : Int) (events : List Event) : Prop :=
  ∀ x, newestConfigAuthority events = some x → aged keepAfter x = false ∨
    ∀ y ∈ events, isConfigGenerationAuthority y = true → y.seq ≤ x.seq

theorem newestConfigAuthority_eq (events : List Event) :
    newestConfigAuthority events = (authorities events).getLast?.map Prod.fst := by
  unfold newestConfigAuthority authorities
  rw [← getLast?_map, filter_zipIdx]

theorem mem_authorities_of_mem {y : Event} (hy : y ∈ events)
    (hauth : isConfigGenerationAuthority y = true) : ∃ q ∈ authorities events, q.1 = y := by
  have hmem : y ∈ events.zipIdx.map Prod.fst := by rwa [zipIdx_map_fst]
  obtain ⟨q, hq, rfl⟩ := mem_map.mp hmem
  exact ⟨q, mem_filter.mpr ⟨hq, hauth⟩, rfl⟩

/-- When the newest configuration authority survives. -/
theorem survivors_configAuthority_iff :
    newestConfigAuthority (survivors keepAfter keepRunStartsAfter events) =
        newestConfigAuthority events ↔ AuthorityKept keepAfter events := by
  have hkept : newestConfigAuthority (survivors keepAfter keepRunStartsAfter events) =
      ((authorities events).filter
        (keptAt keepAfter keepRunStartsAfter events)).getLast?.map Prod.fst := by
    unfold newestConfigAuthority
    rw [filter_survivors, getLast?_map]
    rfl
  rw [hkept]
  unfold AuthorityKept
  rw [newestConfigAuthority_eq]
  constructor
  · intro hsame x hx
    rw [hx] at hsame
    obtain ⟨r, hr, rfl⟩ := Option.map_eq_some_iff.mp hsame
    have hmem := mem_filter.mp (mem_of_getLast? hr)
    have hauth := (mem_filter.mp hmem.1).2
    by_cases hlatest : (checkpoints events).latestConfigAuthority.map Prod.fst = some r.2
    · right
      intro y hy hyauth
      obtain ⟨q, hq, rfl⟩ := mem_authorities_of_mem hy hyauth
      exact (isAuthority_of_latest (mem_filter.mp hmem.1).1 hlatest).2 q hq
    · left
      -- an authority is no checkpoint of any other kind
      have htype : r.1.type = .configReloaded ∨ r.1.type = .runnerAnnotate := by
        unfold isConfigGenerationAuthority at hauth
        simp only [Bool.or_eq_true, Bool.and_eq_true, decide_eq_true_eq] at hauth
        exact hauth.imp id And.left
      rcases keptAt_iff.mp hmem.2 with h | h | h | h | h | h | h
      · exact h
      · rcases htype with ht | ht <;> simp [triggerKey, ht] at h
      · rcases htype with ht | ht <;> simp [compactWorkerDivergenceKey, ht] at h
      · rcases htype with ht | ht <;> simp [clusterCheckKey, ht] at h
      · exact absurd h hlatest
      · rcases htype with ht | ht <;> simp [ht] at h
      · rcases htype with ht | ht <;> simp [ht] at h
  · intro hcond
    cases hlast : (authorities events).getLast? with
    | none => rw [getLast?_eq_none_iff.mp hlast]; rfl
    | some q =>
      rw [getLast?_filter_eq_some hlast]
      refine keptAt_iff.mpr ?_
      rcases hcond q.1 (by rw [hlast]; rfl) with h | h
      · exact .inl h
      refine .inr (.inr (.inr (.inr (.inl (latest_of_last_authority hlast fun p hp => ?_)))))
      have hp' := mem_filter.mp hp
      exact h p.1 (fst_mem_of_mem_zipIdx hp'.1) hp'.2

def validRecords (parseTime : String → Option Int) (check : String) (events : List Event) :
    List Event :=
  events.filter (validCheck parseTime check)

/--
The status of a check outlives the pass: the record that decides it is not old or is
the one the pass takes to decide the check, and where it is a warning, the failures
that are not old are answered by a record that is not old either.
-/
def CheckKept (parseTime : String → Option Int) (keepAfter : Int) (events : List Event)
    (check : String) : Prop :=
  ∀ s, decisive checkOutcome (validRecords parseTime check events) = some s →
    (aged keepAfter s = false ∨
      decisive checkOutcome (events.filter (fun ev => clusterCheckKey ev = check)) = some s) ∧
    (checkOutcome s = "warn" → ∀ x,
      lastDefinite checkOutcome
          ((validRecords parseTime check events).filter (fun ev => !aged keepAfter ev)) = some x →
        checkOutcome x ≠ "fail")

section checks
variable {parseTime : String → Option Int} {check : String}

/-- The records of a check with their places, valid or not. -/
def checkRecords (check : String) (events : List Event) : List (Event × Nat) :=
  events.zipIdx.filter (fun p => clusterCheckKey p.1 = check)

theorem clusterCheckKey_of_valid {ev : Event} (h : validCheck parseTime check ev = true) :
    ev.type = .clusterCheckCompleted ∧ clusterCheckKey ev = check ∧ check ≠ "" := by
  obtain ⟨r, hr, rfl⟩ := validCheck_iff.mp h
  obtain ⟨htype, hcheck, hne, -⟩ := fromEvent_some hr
  refine ⟨htype, ?_, hne⟩
  rw [clusterCheckKey, if_pos htype, hcheck]

/-- The valid ones among them. -/
def validAt (parseTime : String → Option Int) (check : String) (events : List Event) :
    List (Event × Nat) :=
  (checkRecords check events).filter (fun p => validCheck parseTime check p.1)

theorem validAt_eq : validAt parseTime check events =
    events.zipIdx.filter (fun p => validCheck parseTime check p.1) := by
  unfold validAt checkRecords
  rw [filter_filter]
  refine filter_congr fun p _ => ?_
  by_cases hp : validCheck parseTime check p.1 = true
  · simp [(clusterCheckKey_of_valid hp).2.1]
  · simp [hp]

theorem keptAt_valid_iff (hp : p ∈ events.zipIdx) (hvalid : validCheck parseTime check p.1 = true) :
    keptAt keepAfter keepRunStartsAfter events p =
      keepDecisive outcomeAt (checkRecords check events) (fun p => aged keepAfter p.1) p := by
  obtain ⟨htype, hkey, hne⟩ := clusterCheckKey_of_valid hvalid
  have hdecisive : ((checkpoints events).latestClusterCheck.get? check).map Prod.fst = some p.2 ↔
      decisive outcomeAt (checkRecords check events) = some p := by
    rw [latestClusterCheck_eq events hne, Option.map_map]
    constructor
    · intro h
      obtain ⟨q, hq, hidx⟩ := Option.map_eq_some_iff.mp h
      obtain rfl := zipIdx_ext (mem_filter.mp (decisive_mem hq)).1 hp hidx
      exact hq
    · intro h
      exact Option.map_eq_some_iff.mpr ⟨p, h, rfl⟩
  rw [Bool.eq_iff_iff, keptAt_iff]
  unfold keepDecisive
  simp only [Bool.or_eq_true, Bool.not_eq_eq_eq_not, decide_eq_true_eq,
    ← hdecisive]
  constructor
  · rintro (h | h | h | h | h | h | h)
    · exact .inl h
    · simp [triggerKey, htype] at h
    · simp [compactWorkerDivergenceKey, htype] at h
    · exact .inr (hkey ▸ h.2)
    · have := (mem_filter.mp (isAuthority_of_latest hp h).1).2
      simp [isConfigGenerationAuthority, htype] at this
    · simp [htype] at h
    · simp [htype] at h
  · rintro (h | h)
    · exact .inl h
    · exact .inr (.inr (.inr (.inl ⟨hkey ▸ hne, hkey ▸ h⟩)))

theorem validRecords_eq :
    validRecords parseTime check events = (validAt parseTime check events).map Prod.fst := by
  rw [validAt_eq]
  exact (filter_zipIdx _).symm

theorem validRecords_survivors :
    validRecords parseTime check (survivors keepAfter keepRunStartsAfter events) =
      ((validAt parseTime check events).filter
        (keepDecisive outcomeAt (checkRecords check events) (fun p => aged keepAfter p.1))).map
          Prod.fst := by
  unfold validRecords
  rw [filter_survivors, validAt_eq]
  congr 1
  refine filter_congr fun p hp => ?_
  exact keptAt_valid_iff (mem_filter.mp hp).1 (mem_filter.mp hp).2

theorem nodup_checkRecords (check : String) (events : List Event) :
    (checkRecords check events).Nodup :=
  (nodup_zipIdx events).filter _

theorem decisive_checkRecords_iff
    (hp : decisive outcomeAt (validAt parseTime check events) = some p) :
    decisive outcomeAt (checkRecords check events) = some p ↔
      decisive checkOutcome (events.filter (fun ev => clusterCheckKey ev = check)) =
        some p.1 := by
  have hmap : decisive checkOutcome (events.filter (fun ev => clusterCheckKey ev = check)) =
      (decisive outcomeAt (checkRecords check events)).map Prod.fst := by
    rw [← filter_zipIdx (fun ev => decide (clusterCheckKey ev = check)), decisive_map]
    rfl
  rw [hmap]
  constructor
  · intro h
    rw [h]
    rfl
  · intro h
    obtain ⟨q, hq, hevent⟩ := Option.map_eq_some_iff.mp h
    have hvalid : validCheck parseTime check q.1 = true :=
      hevent ▸ (mem_filter.mp (decisive_mem hp)).2
    rw [eq_of_decisive (nodup_checkRecords check events) hp hq hvalid
      (congrArg checkOutcome hevent)]
    exact hq

theorem validRecords_notAged :
    (validRecords parseTime check events).filter (fun ev => !aged keepAfter ev) =
      ((validAt parseTime check events).filter (fun p => !aged keepAfter p.1)).map Prod.fst := by
  rw [validRecords_eq, filter_map]
  rfl

theorem checkKept_iff (hp : decisive outcomeAt (validAt parseTime check events) = some p) :
    CheckKept parseTime keepAfter events check ↔
      (aged keepAfter p.1 = false ∨
        decisive outcomeAt (checkRecords check events) = some p) ∧
      (checkOutcome p.1 = "warn" → ∀ x,
        lastDefinite outcomeAt
          ((validAt parseTime check events).filter (fun p => !aged keepAfter p.1)) = some x →
            checkOutcome x.1 ≠ "fail") := by
  have hdecides : decisive checkOutcome (validRecords parseTime check events) = some p.1 := by
    rw [validRecords_eq, decisive_map]
    exact Option.map_eq_some_iff.mpr ⟨p, hp, rfl⟩
  unfold CheckKept
  rw [validRecords_notAged, lastDefinite_map, hdecides, decisive_checkRecords_iff hp]
  constructor
  · intro h
    obtain ⟨hkept, hrecovery⟩ := h p.1 rfl
    exact ⟨hkept, fun hwarn x hx => hrecovery hwarn x.1 (Option.map_eq_some_iff.mpr ⟨x, hx, rfl⟩)⟩
  · rintro ⟨hkept, hrecovery⟩ s hs
    obtain rfl := Option.some.inj hs
    refine ⟨hkept, fun hwarn x hx => ?_⟩
    obtain ⟨q, hq, rfl⟩ := Option.map_eq_some_iff.mp hx
    exact hrecovery hwarn q hq

theorem clusterChecks_at {l : List Event} {places : List (Event × Nat)}
    (h : validRecords parseTime check l = places.map Prod.fst) :
    (ofLog parseTime l).clusterChecks.get? check =
      (decisive outcomeAt places).bind (fun p => fromEvent parseTime p.1) := by
  rw [clusterChecks_eq]
  unfold validRecords at h
  rw [h, decisive_map, Option.bind_map]
  rfl

/-- When the decisive record of a cluster check survives. -/
theorem survivors_clusterCheck_iff :
    (ofLog parseTime
        (survivors keepAfter keepRunStartsAfter events)).clusterChecks.get? check =
      (ofLog parseTime events).clusterChecks.get? check ↔
      CheckKept parseTime keepAfter events check := by
  rw [clusterChecks_at validRecords_survivors, clusterChecks_at validRecords_eq]
  cases hp : decisive outcomeAt (validAt parseTime check events) with
  | none =>
    have hnil := decisive_eq_none_iff.mp hp
    rw [hnil]
    refine iff_of_true rfl fun s hs => ?_
    rw [validRecords_eq, hnil] at hs
    cases hs
  | some p =>
    obtain ⟨r, hr, -⟩ := validCheck_iff.mp (mem_filter.mp (decisive_mem hp)).2
    have hvalue : ∀ x ∈ validAt parseTime check events, ∀ y ∈ validAt parseTime check events,
        fromEvent parseTime x.1 = fromEvent parseTime y.1 →
          aged keepAfter x.1 = aged keepAfter y.1 ∧ outcomeAt x = outcomeAt y := by
      intro x hx y _ hsame
      obtain ⟨rx, hrx, -⟩ := validCheck_iff.mp (mem_filter.mp hx).2
      obtain ⟨-, -, -, houtx, htimex⟩ := fromEvent_some hrx
      obtain ⟨-, -, -, houty, htimey⟩ := fromEvent_some (hsame ▸ hrx)
      refine ⟨?_, houtx.symm.trans houty⟩
      unfold aged
      rw [← htimex, ← htimey]
    refine Iff.trans ?_ ((decisive_kept_iff (nodup_checkRecords check events) hvalue hp).trans
      (checkKept_iff hp).symm)
    rw [Option.bind_some, hr, ← validAt]
    -- a record that decides is valid, so its result is there
    cases decisive outcomeAt ((validAt parseTime check events).filter
      (keepDecisive outcomeAt (checkRecords check events) (fun p => aged keepAfter p.1))) with
    | none => simp
    | some q => simp

end checks

/-! ### Scheduled triggers -/

/--
Each scheduled trigger is not old, or another of its workflow is at least as late and
stays: because it is not old, or because it is the last one of its key.
-/
def TriggersKept (keepAfter : Int) (events : List Event) : Prop :=
  ∀ x ∈ events, ∀ f, firedRecord x = some f →
    ∃ y ∈ events, ∃ g, firedRecord y = some g ∧
      g.gaggle = f.gaggle ∧ g.workflow = f.workflow ∧ f.time ≤ g.time ∧
      (aged keepAfter y = false ∨
        triggerKey y ≠ "" ∧
          (events.filter (fun ev => triggerKey ev = triggerKey y)).getLast? = some y)

theorem firedRecord_some {ev : Event} {f : TriggerFiredRecord} (h : firedRecord ev = some f) :
    ev.type = .triggerFired ∧ f = ⟨ev.gaggle, ev.workflow, ev.time⟩ := by
  unfold firedRecord at h
  split at h
  · rename_i hfired
    exact ⟨hfired.1, (Option.some.inj h).symm⟩
  · cases h

theorem mem_survivors_trigger {y : Event} (htype : y.type = .triggerFired) :
    y ∈ survivors keepAfter keepRunStartsAfter events ↔
      y ∈ events ∧ (aged keepAfter y = false ∨
        triggerKey y ≠ "" ∧
          (events.filter (fun ev => triggerKey ev = triggerKey y)).getLast? = some y) := by
  have hlast : (events.filter (fun ev => triggerKey ev = triggerKey y)).getLast? =
      (events.zipIdx.filter (fun p => triggerKey p.1 = triggerKey y)).getLast?.map Prod.fst := by
    rw [← getLast?_map, filter_zipIdx (fun ev => decide (triggerKey ev = triggerKey y))]
  rw [mem_survivors]
  -- a trigger survives by its age or as the latest of its key
  constructor
  · rintro ⟨i, hi, hkept⟩
    refine ⟨fst_mem_of_mem_zipIdx hi, ?_⟩
    rcases keptAt_iff.mp hkept with h | h | h | h | h | h | h
    · exact .inl h
    · refine .inr ⟨h.1, ?_⟩
      have hlatest := h.2
      rw [latestTrigger_eq events h.1] at hlatest
      obtain ⟨q, hq, hqi⟩ := Option.map_eq_some_iff.mp hlatest
      have hplace := zipIdx_ext (mem_filter.mp (mem_of_getLast? hq)).1 hi hqi
      rw [hlast]
      exact Option.map_eq_some_iff.mpr ⟨q, hq, by rw [hplace]⟩
    · simp [compactWorkerDivergenceKey, htype] at h
    · simp [clusterCheckKey, htype] at h
    · have := (mem_filter.mp (isAuthority_of_latest hi h).1).2
      simp [isConfigGenerationAuthority, htype] at this
    · simp [htype] at h
    · simp [htype] at h
  · rintro ⟨hmem, hnew | ⟨hkey, hl⟩⟩
    · rw [← zipIdx_map_fst 0 events] at hmem
      obtain ⟨⟨_, i⟩, hi, rfl⟩ := mem_map.mp hmem
      exact ⟨i, hi, keptAt_iff.mpr (.inl hnew)⟩
    · rw [hlast] at hl
      obtain ⟨⟨_, i⟩, hq, rfl⟩ := Option.map_eq_some_iff.mp hl
      refine ⟨i, (mem_filter.mp (mem_of_getLast? hq)).1, keptAt_iff.mpr (.inr (.inl ?_))⟩
      exact ⟨hkey, by rw [latestTrigger_eq events hkey, hq]; rfl⟩

theorem triggersKept_iff (keepRunStartsAfter : Int) :
    TriggersKept keepAfter events ↔
      ∀ x ∈ events, ∀ f, firedRecord x = some f →
        ∃ y ∈ survivors keepAfter keepRunStartsAfter events, ∃ g, firedRecord y = some g ∧
          g.gaggle = f.gaggle ∧ g.workflow = f.workflow ∧ f.time ≤ g.time := by
  constructor
  · intro h x hx f hf
    obtain ⟨y, hy, g, hg, hgaggle, hworkflow, htime, hstays⟩ := h x hx f hf
    exact ⟨y, (mem_survivors_trigger (firedRecord_some hg).1).mpr ⟨hy, hstays⟩, g, hg, hgaggle,
      hworkflow, htime⟩
  · intro h x hx f hf
    obtain ⟨y, hy, g, hg, hgaggle, hworkflow, htime⟩ := h x hx f hf
    obtain ⟨hmem, hstays⟩ := (mem_survivors_trigger (firedRecord_some hg).1).mp hy
    exact ⟨y, hmem, g, hg, hgaggle, hworkflow, htime, hstays⟩

theorem survivors_sublist (keepAfter keepRunStartsAfter : Int) (events : List Event) :
    (survivors keepAfter keepRunStartsAfter events).Sublist events :=
  zipIdx_filter_sublist events _

theorem mem_fireTimes {workflows : List WorkflowIdentity} {identity : WorkflowIdentity}
    {l : List Event} {t : Int} :
    t ∈ fireTimes l workflows identity ↔ ∃ ev ∈ l, ∃ f, firedRecord ev = some f ∧
      resolveWorkflowIdentity f.gaggle f.workflow workflows = some identity ∧ f.time = t := by
  unfold fireTimes
  simp only [mem_map, mem_filter, mem_filterMap, decide_eq_true_eq]
  constructor
  · rintro ⟨f, ⟨⟨ev, hev, hf⟩, hresolve⟩, htime⟩
    exact ⟨ev, hev, f, hf, hresolve, htime⟩
  · rintro ⟨ev, hev, f, hf, hresolve, htime⟩
    exact ⟨f, ⟨⟨ev, hev, hf⟩, hresolve⟩, htime⟩

theorem max?_eq_of_dominated {before after : List Int} (hsub : ∀ t ∈ after, t ∈ before)
    (hdom : ∀ t ∈ before, ∃ u ∈ after, t ≤ u) : after.max? = before.max? := by
  cases hmax : before.max? with
  | none =>
    have hnil : after = [] := by
      refine eq_nil_iff_forall_not_mem.mpr fun t ht => ?_
      have := hsub t ht
      rw [max?_eq_none_iff.mp hmax] at this
      cases this
    rw [hnil]
    rfl
  | some m =>
    obtain ⟨hmem, hle⟩ := max?_eq_some_iff.mp hmax
    obtain ⟨u, hu, hmu⟩ := hdom m hmem
    have : u = m := le_antisymm (hle u (hsub u hu)) hmu
    exact max?_eq_some_iff.mpr ⟨this ▸ hu, fun t ht => hle t (hsub t ht)⟩

theorem lastEval_survivors (hkept : TriggersKept keepAfter events)
    (workflows : List WorkflowIdentity) (startedAt : Int) (identity : WorkflowIdentity) :
    lastEval (survivors keepAfter keepRunStartsAfter events) workflows startedAt identity =
      lastEval events workflows startedAt identity := by
  rw [lastEval_eq, lastEval_eq]
  have hmax : (fireTimes (survivors keepAfter keepRunStartsAfter events) workflows identity).max? =
      (fireTimes events workflows identity).max? := by
    apply max?_eq_of_dominated
    · intro t ht
      obtain ⟨ev, hev, hrest⟩ := mem_fireTimes.mp ht
      exact mem_fireTimes.mpr ⟨ev, (survivors_sublist _ _ _).subset hev, hrest⟩
    · intro t ht
      obtain ⟨ev, hev, f, hf, hresolve, rfl⟩ := mem_fireTimes.mp ht
      obtain ⟨y, hy, g, hg, hgaggle, hworkflow, htime⟩ :=
        (triggersKept_iff keepRunStartsAfter).mp hkept ev hev f hf
      refine ⟨g.time, mem_fireTimes.mpr ⟨y, hy, g, hg, ?_, rfl⟩, htime⟩
      rw [hgaggle, hworkflow, hresolve]
  rw [hmax]

/-- Workflows among which only the records of this gaggle and name resolve to the first. -/
def onlyWorkflow (gaggle workflow : String) : List WorkflowIdentity :=
  if gaggle = "" then [⟨"", workflow⟩] else [⟨gaggle, workflow⟩, ⟨"", workflow⟩]

theorem resolve_onlyWorkflow (gaggle workflow gaggle' workflow' : String) :
    resolveWorkflowIdentity gaggle' workflow' (onlyWorkflow gaggle workflow) =
        some ⟨gaggle, workflow⟩ ↔ gaggle' = gaggle ∧ workflow' = workflow := by
  unfold resolveWorkflowIdentity onlyWorkflow
  by_cases hg' : gaggle' = "" <;> by_cases hg : gaggle = "" <;>
    by_cases hw : workflow = workflow' <;> simp_all [eq_comm]

/-- When every workflow's last evaluation survives. -/
theorem survivors_lastEval_iff :
    (∀ workflows startedAt identity,
        lastEval (survivors keepAfter keepRunStartsAfter events) workflows startedAt identity =
          lastEval events workflows startedAt identity) ↔
      TriggersKept keepAfter events := by
  refine ⟨fun hsame => (triggersKept_iff keepRunStartsAfter).mpr fun x hx f hf => ?_,
    lastEval_survivors⟩
  -- among these workflows only the records of this gaggle and name count
  have hx' := hsame (onlyWorkflow f.gaggle f.workflow) (f.time - 1) ⟨f.gaggle, f.workflow⟩
  rw [lastEval_eq, lastEval_eq] at hx'
  have hmem : f.time ∈ fireTimes events (onlyWorkflow f.gaggle f.workflow)
      ⟨f.gaggle, f.workflow⟩ :=
    mem_fireTimes.mpr ⟨x, hx, f, hf, (resolve_onlyWorkflow _ _ _ _).mpr ⟨rfl, rfl⟩, rfl⟩
  cases hmax : (fireTimes events (onlyWorkflow f.gaggle f.workflow)
      ⟨f.gaggle, f.workflow⟩).max? with
  | none =>
    rw [max?_eq_none_iff.mp hmax] at hmem
    cases hmem
  | some m =>
    have hle := (max?_eq_some_iff.mp hmax).2 f.time hmem
    rw [hmax] at hx'
    cases hmax' : (fireTimes (survivors keepAfter keepRunStartsAfter events)
        (onlyWorkflow f.gaggle f.workflow) ⟨f.gaggle, f.workflow⟩).max? with
    | none =>
      rw [hmax'] at hx'
      dsimp only at hx'
      split at hx'
      · have := Option.some.inj hx'
        omega
      · cases hx'
    | some m' =>
      rw [hmax'] at hx'
      obtain rfl := Option.some.inj hx'
      obtain ⟨y, hy, g, hg, hresolve, htime⟩ :=
        mem_fireTimes.mp (max?_eq_some_iff.mp hmax').1
      obtain ⟨hgaggle, hworkflow⟩ := (resolve_onlyWorkflow _ _ _ _).mp hresolve
      exact ⟨y, hy, g, hg, hgaggle, hworkflow, htime ▸ hle⟩

end

end

/-! ## Restart checkpoints -/

/-- A restart finds the same state in both logs. -/
structure SameCheckpoints (parseTime : String → Option Int) (before after : List Event) : Prop where
  clusterChecks : ∀ check, (InstanceState.ofLog parseTime after).clusterChecks.get? check =
    (InstanceState.ofLog parseTime before).clusterChecks.get? check
  workerDivergence : ∀ worker, (InstanceState.ofLog parseTime after).workerDivergence.get? worker =
    (InstanceState.ofLog parseTime before).workerDivergence.get? worker
  initCompletedAt : (InstanceState.ofLog parseTime after).initCompletedAt =
    (InstanceState.ofLog parseTime before).initCompletedAt
  configAuthority : newestConfigAuthority after = newestConfigAuthority before
  lastEval : ∀ workflows startedAt identity,
    lastEval after workflows startedAt identity = lastEval before workflows startedAt identity

/-- The log is one whose checkpoints by position are those a restart looks for. -/
structure RetentionSafe (parseTime : String → Option Int) (keepAfter : Int) (events : List Event) :
    Prop where
  checks : ∀ check, CheckKept parseTime keepAfter events check
  authority : AuthorityKept keepAfter events
  triggers : TriggersKept keepAfter events

/--
**A pass preserves the restart checkpoints exactly on the safe logs.** The
compacted log is always one the reader accepts.
-/
theorem compaction_keeps_checkpoints_iff (unmarshal : Bytes → Option Event)
    (hjson : ∀ text ev, unmarshal text = some ev → text.head? ≠ some 0)
    (parseTime : String → Option Int) {data compacted : Bytes} {events : List Event} {torn : Nat}
    {keepAfter keepRunStartsAfter : Int} {result : InstanceEventsCompaction}
    (hread : readEvents unmarshal data = .ok (events, torn))
    (hpass : compactInstanceEventsData unmarshal data keepAfter keepRunStartsAfter =
      .ok (result, compacted)) :
    (∃ after tornAfter, readEvents unmarshal compacted = .ok (after, tornAfter) ∧
        SameCheckpoints parseTime events after) ↔
      RetentionSafe parseTime keepAfter events := by
  have hafter := readEvents_compacted hjson hread hpass
  constructor
  · rintro ⟨after, tornAfter, hread', hsame⟩
    rw [hafter] at hread'
    cases hread'
    exact ⟨fun _ => survivors_clusterCheck_iff.mp (hsame.clusterChecks _),
      survivors_configAuthority_iff.mp hsame.configAuthority,
      survivors_lastEval_iff.mp hsame.lastEval⟩
  · intro hsafe
    refine ⟨_, _, hafter, ?_⟩
    exact
      { clusterChecks := fun _ => survivors_clusterCheck_iff.mpr (hsafe.checks _)
        workerDivergence := survivors_workerDivergence parseTime
        initCompletedAt := survivors_initCompletedAt parseTime
        configAuthority := survivors_configAuthority_iff.mpr hsafe.authority
        lastEval := survivors_lastEval_iff.mpr hsafe.triggers }

/-- Reads the text codec's lines, and nothing that is no object. -/
def objectUnmarshal (text : Bytes) : Option Event :=
  if text.head? = some openBrace then textUnmarshal text else none

theorem objectUnmarshal_head (text : Bytes) (ev : Event) (h : objectUnmarshal text = some ev) :
    text.head? ≠ some 0 := by
  unfold objectUnmarshal at h
  split at h
  · rename_i hhead
    rw [hhead]
    decide
  · cases h

def textLog (events : List Event) : Bytes := frame newline (events.filterMap textMarshal)

def nightlyFire (seq : Nat) (time : Int) : Event :=
  { schema := eventSchema, seq := seq, type := .triggerFired, time := time, workflow := "nightly",
    gaggle := "core", reason := "scheduled" }

def dnsCheck (seq : Nat) (time : Int) (outcome expiresAt : String) : Event :=
  { schema := eventSchema, seq := seq, type := .clusterCheckCompleted, time := time,
    runner := [("check", .str "dns"), ("outcome", .str outcome), ("expiresAt", .str expiresAt)] }

/-- Reads the one expiry time the log below holds. -/
def parseNine (s : String) : Option Int := if s = "t9000" then some 9000 else none

/--
The clock is set back between two fires of a workflow. The pass keeps the second by
position and drops the first, so a restart evaluates the workflow from the fire at 50,
where the original log gives the fire at 100.
-/
theorem clock_set_back_moves_lastEval :
    readEvents objectUnmarshal (textLog [nightlyFire 1 100, nightlyFire 2 50]) =
        .ok ([nightlyFire 1 100, nightlyFire 2 50], 0) ∧
      (compactInstanceEventsData objectUnmarshal
          (textLog [nightlyFire 1 100, nightlyFire 2 50]) 1000 0).map Prod.snd =
        .ok (textLog [nightlyFire 2 50]) ∧
      readEvents objectUnmarshal (textLog [nightlyFire 2 50]) = .ok ([nightlyFire 2 50], 0) ∧
      lastEval [nightlyFire 1 100, nightlyFire 2 50] [⟨"core", "nightly"⟩] 2000
        ⟨"core", "nightly"⟩ = some 100 ∧
      lastEval [nightlyFire 2 50] [⟨"core", "nightly"⟩] 2000 ⟨"core", "nightly"⟩ = some 50 := by
  decide +kernel

def orderedLog : List Event :=
  [nightlyFire 1 50, nightlyFire 2 100, dnsCheck 3 60 "fail" "t9000", dnsCheck 4 70 "warn" "t9000"]

theorem checkKept_orderedLog (check : String) : CheckKept parseNine 1000 orderedLog check := by
  intro s hs
  have hmem : s ∈ orderedLog := (mem_filter.mp (decisive_mem hs)).1
  have hvalid := (mem_filter.mp (decisive_mem hs)).2
  obtain ⟨htype, hkey, -⟩ := clusterCheckKey_of_valid hvalid
  have hdns : ∀ ev ∈ orderedLog, ev.type = .clusterCheckCompleted → clusterCheckKey ev = "dns" := by
    decide +kernel
  obtain rfl : check = "dns" := hkey.symm.trans (hdns s hmem htype)
  have hdecides : decisive checkOutcome (validRecords parseNine "dns" orderedLog) =
      some (dnsCheck 3 60 "fail" "t9000") := by decide +kernel
  obtain rfl := Option.some.inj (hdecides.symm.trans hs)
  exact ⟨.inr (by decide +kernel), fun hwarn => absurd hwarn (by decide +kernel)⟩

theorem retentionSafe_orderedLog : RetentionSafe parseNine 1000 orderedLog where
  checks := checkKept_orderedLog
  authority := by
    intro x hx
    cases hx
  triggers := by
    intro x hx f hf
    have hdom : ∀ x ∈ orderedLog, x.type = .triggerFired →
        x.gaggle = "core" ∧ x.workflow = "nightly" ∧ x.time ≤ 100 := by decide +kernel
    obtain ⟨htype, rfl⟩ := firedRecord_some hf
    obtain ⟨hgaggle, hworkflow, htime⟩ := hdom x hx htype
    refine ⟨nightlyFire 2 100, by decide +kernel, ⟨"core", "nightly", 100⟩, by decide +kernel,
      hgaggle.symm, hworkflow.symm, htime, .inr ⟨by decide +kernel, by decide +kernel⟩⟩

/-- All of an ordered log is old, and a restart finds the same state in the two records kept. -/
theorem orderedLog_keeps_checkpoints :
    ∃ after tornAfter,
      readEvents objectUnmarshal
          (textLog [nightlyFire 2 100, dnsCheck 3 60 "fail" "t9000"]) = .ok (after, tornAfter) ∧
        SameCheckpoints parseNine orderedLog after := by
  have hpass :
      (compactInstanceEventsData objectUnmarshal (textLog orderedLog) 1000 0).map Prod.snd =
        .ok (textLog [nightlyFire 2 100, dnsCheck 3 60 "fail" "t9000"]) := by decide +kernel
  cases hdata : compactInstanceEventsData objectUnmarshal (textLog orderedLog) 1000 0 with
  | error e =>
    rw [hdata] at hpass
    cases hpass
  | ok r =>
    obtain ⟨result, compacted⟩ := r
    rw [hdata] at hpass
    cases hpass
    exact (compaction_keeps_checkpoints_iff objectUnmarshal objectUnmarshal_head parseNine
      (show readEvents objectUnmarshal (textLog orderedLog) = .ok (orderedLog, 0) by
        decide +kernel) hdata).mpr retentionSafe_orderedLog

end Goobers.ReadService
