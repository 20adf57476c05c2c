import Goobers.Findings.Ledger

/-!
# What a replay leaves open

The order in which ids were raised only decides how the result is listed. What is outstanding is
the map of open findings, and for that every operation has a short description: raising puts the
last finding of an id there, closing removes the instances that a disposition names, and applying
a record to the empty ledger leaves exactly what the record raises.
-/

namespace Goobers.Findings

open Lib List

variable {sum : Severity → FindingClass → String → String → List UInt8} {substantive : Substantive}

/-! ## Identity -/

theorem hexDigit_not_space {n : Nat} (h : n < 16) : isSpace (hexDigit n) = false := by
  revert n
  decide

theorem hexEncode_not_space (bytes : List UInt8) :
    ∀ c ∈ (hexEncode bytes).toList, isSpace c = false := by
  intro c hc
  unfold hexEncode at hc
  rw [String.toList_ofList] at hc
  obtain ⟨b, _, hmem⟩ := mem_flatMap.mp hc
  have hb : b.toNat < 256 := b.toNat_lt
  rcases mem_cons.mp hmem with rfl | hmem
  · exact hexDigit_not_space (by omega)
  · rw [mem_singleton.mp hmem]
    exact hexDigit_not_space (by omega)

@[simp] theorem trimSpace_findingID (f : Finding) :
    trimSpace (findingID sum f) = findingID sum f := by
  unfold findingID
  split
  · exact trimSpace_trimSpace f.id
  refine trimSpace_eq_self (fun c hc => ?_)
  rw [String.toList_append, mem_append] at hc
  have hlead : "finding:content:".toList.all (fun c => !isSpace c) = true := by decide
  rcases hc with hc | hc
  · simpa using all_eq_true.mp hlead c hc
  · exact hexEncode_not_space _ c hc

theorem findingID_ne_empty (f : Finding) : findingID sum f ≠ "" := by
  unfold findingID
  split
  · assumption
  intro h
  have hlen := congrArg (fun s => s.toList.length) h
  rw [String.toList_append] at hlen
  simp at hlen

/-- An id the ledger may use: trimmed and not empty. -/
structure IsID (id : String) : Prop where
  trimmed : trimSpace id = id
  nonempty : id ≠ ""

theorem isID_findingID (f : Finding) : IsID (findingID sum f) :=
  ⟨trimSpace_findingID f, findingID_ne_empty f⟩

theorem findingID_eq {f : Finding} (h : IsID f.id) : findingID sum f = f.id := by
  unfold findingID
  rw [h.trimmed, if_pos h.nonempty]

/-! ## The state -/

structure Ledger.Ok (l : Ledger) : Prop where
  keyed : ∀ id f, l.open_.get? id = some f → f.id = id
  named : ∀ id f, l.open_.get? id = some f → IsID id
  listed : ∀ id f, l.open_.get? id = some f → id ∈ l.order

theorem Ledger.ok_empty : ({} : Ledger).Ok := by
  refine ⟨fun id f h => ?_, fun id f h => ?_, fun id f h => ?_⟩
  all_goals
    cases h

/-! ## What an operation does -/

variable (sum substantive) in
/-- The instance that raising the findings puts under an id: the last one of it. -/
def lastRaised (fs : List Finding) (id : String) : Option Finding :=
  (fs.reverse.find? (fun f => allows substantive f && findingID sum f = id)).map
    (fun f => { f with id := id })

/-- The disposition is complete and names this instance of the finding. -/
def FindingDisposition.closes (d : FindingDisposition) (f : Finding) : Prop :=
  d.answers = true ∧ trimSpace d.findingID = f.id ∧ d.findingGeneration = f.ledgerGeneration

instance (d : FindingDisposition) (f : Finding) : Decidable (d.closes f) :=
  inferInstanceAs (Decidable (d.answers = true ∧ trimSpace d.findingID = f.id ∧
    d.findingGeneration = f.ledgerGeneration))

def Answered (dispositions : List FindingDisposition) (f : Finding) : Prop :=
  ∃ d ∈ dispositions, d.closes f

instance (dispositions : List FindingDisposition) (f : Finding) :
    Decidable (Answered dispositions f) :=
  inferInstanceAs (Decidable (∃ d ∈ dispositions, d.closes f))

theorem lastRaised_append (fs gs : List Finding) (id : String) :
    lastRaised sum substantive (fs ++ gs) id =
      (lastRaised sum substantive gs id).or (lastRaised sum substantive fs id) := by
  unfold lastRaised
  rw [reverse_append, find?_append, Option.map_or]

theorem lastRaised_singleton (f : Finding) (id : String) :
    lastRaised sum substantive [f] id =
      if allows substantive f = true ∧ findingID sum f = id then some { f with id := id }
      else none := by
  unfold lastRaised
  rw [reverse_singleton, find?_singleton]
  by_cases h : allows substantive f = true ∧ findingID sum f = id
  · rw [if_pos h, if_pos (by simp [h.1, h.2])]
    rfl
  · rw [if_neg h, if_neg (by simpa using h)]
    rfl

theorem lastRaised_cons (f : Finding) (fs : List Finding) (id : String) :
    lastRaised sum substantive (f :: fs) id =
      (lastRaised sum substantive fs id).or (lastRaised sum substantive [f] id) :=
  lastRaised_append [f] fs id

theorem exists_of_lastRaised {fs : List Finding} {id : String} {f : Finding}
    (h : lastRaised sum substantive fs id = some f) :
    ∃ g ∈ fs, allows substantive g = true ∧ findingID sum g = id ∧ f = { g with id := id } := by
  obtain ⟨g, hfind, hf⟩ := Option.map_eq_some_iff.mp h
  have hmem := mem_reverse.mp (mem_of_find?_eq_some hfind)
  have hg := find?_some hfind
  rw [Bool.and_eq_true, decide_eq_true_eq] at hg
  exact ⟨g, hmem, hg.1, hg.2, hf.symm⟩

theorem lastRaised_isSome_iff {fs : List Finding} {id : String} :
    (lastRaised sum substantive fs id).isSome ↔
      ∃ f ∈ fs, allows substantive f = true ∧ findingID sum f = id := by
  unfold lastRaised
  simp

namespace Ledger

variable {l : Ledger}

/-! ### Raising -/

theorem raise_cons (f : Finding) (fs : List Finding) (l : Ledger) :
    l.raise sum substantive (f :: fs) =
      (l.raise sum substantive [f]).raise sum substantive fs := rfl

theorem raise_one_of_not {f : Finding} (h : allows substantive f = false) :
    l.raise sum substantive [f] = l := by
  simp [raise, h]

theorem get?_raise_one {f : Finding} (h : allows substantive f = true) (id : String) :
    (l.raise sum substantive [f]).open_.get? id =
      if id = findingID sum f then some { f with id := findingID sum f } else l.open_.get? id := by
  simp only [raise, foldl_cons, h]
  exact GoMap.get?_put _ _ _ _

theorem raise_one_ok (hok : l.Ok) (f : Finding) : (l.raise sum substantive [f]).Ok := by
  cases h : allows substantive f with
  | false =>
    rw [raise_one_of_not h]
    exact hok
  | true =>
    refine ⟨fun id g hg => ?_, fun id g hg => ?_, fun id g hg => ?_⟩
    · rw [get?_raise_one h] at hg
      split_ifs at hg with hid
      · injection hg with hg
        rw [← hg, hid]
      · exact hok.keyed id g hg
    · rw [get?_raise_one h] at hg
      split_ifs at hg with hid
      · rw [hid]
        exact isID_findingID f
      · exact hok.named id g hg
    · rw [get?_raise_one h] at hg
      simp only [raise, foldl_cons, h, if_true]
      split_ifs at hg with hid
      · split_ifs with hopen
        · obtain ⟨old, hold⟩ := Option.isSome_iff_exists.mp hopen
          rw [hid]
          exact hok.listed _ old hold
        · rw [hid]
          exact mem_append_right _ (mem_singleton.mpr rfl)
      · have hmem := hok.listed id g hg
        split
        · exact hmem
        · exact mem_append_left _ hmem

theorem raise_ok (hok : l.Ok) (fs : List Finding) : (l.raise sum substantive fs).Ok := by
  induction fs generalizing l with
  | nil => exact hok
  | cons f fs ih =>
    exact ih (raise_one_ok hok f)

/-- Raising findings opens the last one of each id. -/
theorem get?_raise (fs : List Finding) (l : Ledger) (id : String) :
    (l.raise sum substantive fs).open_.get? id =
      (lastRaised sum substantive fs id).or (l.open_.get? id) := by
  induction fs generalizing l with
  | nil => rfl
  | cons f fs ih =>
    rw [raise_cons, ih, lastRaised_cons, Option.or_assoc, lastRaised_singleton]
    cases h : allows substantive f with
    | false =>
      rw [raise_one_of_not h]
      rfl
    | true =>
      rw [get?_raise_one h]
      by_cases hid : findingID sum f = id
      · rw [if_pos hid.symm, if_pos ⟨rfl, hid⟩, hid]
        rfl
      · rw [if_neg (Ne.symm hid), if_neg (fun hc => hid hc.2)]
        rfl

/-! ### Closing -/

theorem close_cons (d : FindingDisposition) (ds : List FindingDisposition) (l : Ledger) :
    l.close (d :: ds) = (l.close [d]).close ds := rfl

@[simp] theorem order_close (ds : List FindingDisposition) (l : Ledger) :
    (l.close ds).order = l.order := by
  induction ds generalizing l with
  | nil => rfl
  | cons d ds ih =>
    rw [close_cons, ih]
    simp only [close, foldl_cons]
    split
    · split <;> rfl
    · rfl

/-- A disposition closes the finding it answers and no other. -/
theorem get?_close_one (hok : l.Ok) (d : FindingDisposition) (id : String) :
    (l.close [d]).open_.get? id = (l.open_.get? id).filter (fun f => !decide (d.closes f)) := by
  simp only [close, foldl_cons, foldl_nil]
  cases hf : l.open_.get? id with
  | none =>
    split
    · split
      · rw [GoMap.get?_del, hf, ite_self]
        rfl
      · exact hf
    · exact hf
  | some f =>
    have hid := hok.keyed id f hf
    by_cases hc : d.closes f
    · -- the disposition looks the finding up under its own id
      have hlook : l.open_.get? (trimSpace d.findingID) = some f := by
        rw [hc.2.1, hid]
        exact hf
      rw [hlook]
      simp only [hc.1, hc.2.2, true_and, if_true]
      rw [hid]
      simp [Option.filter, hc]
    · rw [Option.filter_some, if_pos (by simpa using hc)]
      split
      · rename_i g hg
        split_ifs with hans
        · have hgid := hok.keyed _ g hg
          have hne : id ≠ g.id := by
            intro heq
            rw [hgid] at heq
            rw [← heq, hf] at hg
            injection hg with hg
            exact hc ⟨hans.1, by rw [← heq, hid], by rw [hans.2, hg]⟩
          rw [GoMap.get?_del_of_ne _ hne]
          exact hf
        · exact hf
      · exact hf

theorem close_one_ok (hok : l.Ok) (d : FindingDisposition) : (l.close [d]).Ok := by
  have hsome : ∀ id f, (l.close [d]).open_.get? id = some f → l.open_.get? id = some f := by
    intro id f h
    rw [get?_close_one hok] at h
    exact (Option.filter_eq_some_iff.mp h).1
  refine ⟨fun id f h => hok.keyed id f (hsome id f h), fun id f h => hok.named id f (hsome id f h),
    fun id f h => ?_⟩
  rw [order_close]
  exact hok.listed id f (hsome id f h)

theorem close_ok (hok : l.Ok) (ds : List FindingDisposition) : (l.close ds).Ok := by
  induction ds generalizing l with
  | nil => exact hok
  | cons d ds ih =>
    exact ih (close_one_ok hok d)

theorem get?_close (hok : l.Ok) (ds : List FindingDisposition) (id : String) :
    (l.close ds).open_.get? id = (l.open_.get? id).filter (fun f => !decide (Answered ds f)) := by
  induction ds generalizing l with
  | nil =>
    simp only [close, foldl_nil]
    cases l.open_.get? id <;> rfl
  | cons d ds ih =>
    rw [close_cons, ih (close_one_ok hok d), get?_close_one hok, Option.filter_filter]
    congr 1
    funext f
    have hcons : Answered (d :: ds) f ↔ d.closes f ∨ Answered ds f := by
      simp [Answered]
    simp [decide_eq_decide.mpr hcons]

@[simp] theorem close_empty (ds : List FindingDisposition) : ({} : Ledger).close ds = {} := by
  induction ds with
  | nil => rfl
  | cons d ds ih =>
    exact ih

/-! ### A record -/

theorem apply_ok (hok : l.Ok) (record : Verdict) : (l.apply sum substantive record).Ok := by
  unfold apply
  have h : ((l.close record.dispositions).raise sum substantive record.standingFindings).Ok :=
    raise_ok (close_ok hok record.dispositions) record.standingFindings
  split
  · exact raise_ok h _
  · exact h

end Ledger

variable (sum substantive) in
/-- The instance that a record opens, whatever the ledger before it. -/
def Verdict.opens (record : Verdict) (id : String) : Option Finding :=
  (if record.decision ≠ .pass then lastRaised sum substantive record.findings id else none).or
    (lastRaised sum substantive record.standingFindings id)

theorem Ledger.get?_apply {l : Ledger} (hok : l.Ok) (record : Verdict) (id : String) :
    (l.apply sum substantive record).open_.get? id =
      (record.opens sum substantive id).or
        ((l.open_.get? id).filter (fun f => !decide (Answered record.dispositions f))) := by
  unfold Ledger.apply Verdict.opens
  split
  · rw [get?_raise, get?_raise, get?_close hok, Option.or_assoc]
  · rw [get?_raise, get?_close hok]
    rfl

/-! ## What is outstanding -/

namespace Ledger

variable {l : Ledger}

theorem mem_findingsFrom {f : Finding} : ∀ {order seen : List String},
    f ∈ l.findingsFrom order seen ↔ ∃ id ∈ order, id ∉ seen ∧ l.open_.get? id = some f
  | [], seen => by simp [findingsFrom]
  | id :: order, seen => by
    rw [findingsFrom]
    cases hid : l.open_.get? id with
    | none =>
      simp [mem_findingsFrom, hid]
    | some g =>
      simp only
      split_ifs with hseen
      · simp [mem_findingsFrom, hseen]
      · simp only [mem_cons, mem_findingsFrom]
        constructor
        · intro h
          rcases h with rfl | ⟨k, hk, hnot, hget⟩
          · exact ⟨id, .inl rfl, hseen, hid⟩
          · exact ⟨k, .inr hk, fun h => hnot (.inr h), hget⟩
        · intro ⟨k, hk, hnot, hget⟩
          by_cases heq : k = id
          · rw [heq, hid] at hget
            injection hget with hget
            exact .inl hget.symm
          · refine .inr ⟨k, hk.resolve_left heq, ?_, hget⟩
            intro h
            exact h.elim heq hnot

theorem mem_findings (hok : l.Ok) {f : Finding} :
    f ∈ l.findings ↔ l.open_.get? f.id = some f := by
  unfold findings
  rw [mem_findingsFrom]
  constructor
  · intro ⟨id, _, _, hget⟩
    rw [hok.keyed id f hget]
    exact hget
  · intro hget
    exact ⟨f.id, hok.listed _ _ hget, not_mem_nil, hget⟩

end Ledger

variable (sum substantive) in
def openInstance (records : List Verdict) (head id : String) : Option Finding :=
  (replay sum records head substantive).open_.get? id

theorem replay_ok (records : List Verdict) (head : String) :
    (replay sum records head substantive).Ok := by
  have hfold : ∀ (records : List Verdict) (l : Ledger), l.Ok →
      (records.foldl (fun l record =>
        if record.headSHA = head then l.apply sum substantive record else l) l).Ok := by
    intro records
    induction records with
    | nil => exact fun l h => h
    | cons record records ih =>
      intro l h
      rw [foldl_cons]
      refine ih _ ?_
      split
      · exact Ledger.apply_ok h record
      · exact h
  unfold replay
  split
  · exact Ledger.ok_empty
  split
  · exact Ledger.apply_ok Ledger.ok_empty _
  · exact hfold records {} Ledger.ok_empty

section outstanding

variable {records : List Verdict} {head : String} {f : Finding} {id : String}

theorem mem_outstanding : f ∈ outstanding sum records head substantive ↔
    openInstance sum substantive records head f.id = some f :=
  Ledger.mem_findings (replay_ok records head)

theorem id_of_openInstance (h : openInstance sum substantive records head id = some f) :
    f.id = id :=
  (replay_ok records head).keyed id f h

theorem isID_of_openInstance (h : openInstance sum substantive records head id = some f) :
    IsID id :=
  (replay_ok records head).named id f h

theorem not_mem_outstanding_no_head : f ∉ outstanding sum records "" substantive := by
  unfold outstanding
  exact not_mem_nil

theorem exists_outstanding_iff : (∃ f ∈ outstanding sum records head substantive, f.id = id) ↔
    (openInstance sum substantive records head id).isSome := by
  rw [Option.isSome_iff_exists]
  constructor
  · intro ⟨f, hf, hid⟩
    exact ⟨f, by rw [← hid]; exact mem_outstanding.mp hf⟩
  · intro ⟨f, hf⟩
    have hid := id_of_openInstance hf
    exact ⟨f, mem_outstanding.mpr (by rw [hid]; exact hf), hid⟩

theorem outstanding_unique {g : Finding} (hf : f ∈ outstanding sum records head substantive)
    (hg : g ∈ outstanding sum records head substantive) (h : f.id = g.id) : f = g := by
  have hf' := mem_outstanding.mp hf
  rw [h, mem_outstanding.mp hg] at hf'
  injection hf' with hf'
  exact hf'.symm

end outstanding

/-! ## Snapshots -/

section snapshots

variable {records : List Verdict} {head : String} {record snapshot : Verdict}

theorem latestSnapshot_append_singleton : latestSnapshot (records ++ [record]) head =
    if head ≠ "" ∧ record.headSHA = head ∧ 0 < record.ledgerGeneration ∧
        ∀ s ∈ latestSnapshot records head, s.ledgerGeneration ≤ record.ledgerGeneration then
      some record
    else latestSnapshot records head := by
  unfold latestSnapshot
  rw [foldl_append, foldl_cons, foldl_nil]
  generalize records.foldl _ _ = latest
  -- an empty snapshot has generation zero, so the two ways to say "newer" agree
  have hnewer : (∀ s ∈ (if 0 < latest.ledgerGeneration then some latest else none),
      s.ledgerGeneration ≤ record.ledgerGeneration) ↔
        latest.ledgerGeneration ≤ record.ledgerGeneration := by
    split
    · simp
    · simp only [Option.not_mem_none, false_implies, implies_true, true_iff]
      omega
  simp only [hnewer]
  split
  · rename_i h
    rw [if_pos h.2.2.1]
  · rfl

theorem latestSnapshot_mem (h : latestSnapshot records head = some snapshot) :
    snapshot ∈ records ∧ head ≠ "" ∧ snapshot.headSHA = head ∧ 0 < snapshot.ledgerGeneration := by
  induction records using reverseRecOn with
  | nil => cases h
  | append_singleton records record ih =>
    rw [latestSnapshot_append_singleton] at h
    split_ifs at h with hnew
    · injection h with h
      subst h
      exact ⟨by simp, hnew.1, hnew.2.1, hnew.2.2.1⟩
    · obtain ⟨hmem, hrest⟩ := ih h
      exact ⟨mem_append_left _ hmem, hrest⟩

/-- The latest snapshot is that of the highest generation of the head. -/
theorem le_latestSnapshot (hmem : record ∈ records) (hne : head ≠ "")
    (hhead : record.headSHA = head) (hgen : 0 < record.ledgerGeneration) :
    ∃ s, latestSnapshot records head = some s ∧
      record.ledgerGeneration ≤ s.ledgerGeneration := by
  induction records using reverseRecOn with
  | nil => cases hmem
  | append_singleton records last ih =>
    rw [latestSnapshot_append_singleton]
    rcases mem_append.mp hmem with hmem | hmem
    · obtain ⟨s, hs, hle⟩ := ih hmem
      split_ifs with hnew
      · exact ⟨last, rfl, hle.trans (hnew.2.2.2 s hs)⟩
      · exact ⟨s, hs, hle⟩
    · rw [mem_singleton] at hmem
      subst hmem
      split_ifs with hnot
      · exact ⟨record, rfl, Nat.le_refl _⟩
      -- the record was passed over, so the snapshot before it is newer
      cases hlatest : latestSnapshot records head with
      | none => exact absurd ⟨hne, hhead, hgen, by simp [hlatest]⟩ hnot
      | some s =>
        refine ⟨s, rfl, ?_⟩
        by_contra hlt
        refine hnot ⟨hne, hhead, hgen, fun t ht => ?_⟩
        rw [hlatest, Option.mem_some_iff] at ht
        subst ht
        omega

theorem replay_of_latestSnapshot (h : latestSnapshot records head = some snapshot) :
    replay sum records head substantive = ({} : Ledger).apply sum substantive snapshot := by
  unfold replay
  rw [if_neg (latestSnapshot_mem h).2.1, h]

theorem replay_append_newest (hne : head ≠ "") (hhead : record.headSHA = head)
    (hgen : 0 < record.ledgerGeneration)
    (hnew : ∀ s ∈ latestSnapshot records head, s.ledgerGeneration ≤ record.ledgerGeneration) :
    replay sum (records ++ [record]) head substantive =
      ({} : Ledger).apply sum substantive record := by
  refine replay_of_latestSnapshot ?_
  rw [latestSnapshot_append_singleton, if_pos ⟨hne, hhead, hgen, hnew⟩]

theorem replay_append_older (h : latestSnapshot records head = some snapshot)
    (hold : record.ledgerGeneration < snapshot.ledgerGeneration) :
    replay sum (records ++ [record]) head substantive = replay sum records head substantive := by
  rw [replay_of_latestSnapshot h]
  refine replay_of_latestSnapshot ?_
  rw [latestSnapshot_append_singleton, if_neg, h]
  intro hnew
  have := hnew.2.2.2 snapshot h
  omega

theorem replay_append_legacy (h : latestSnapshot records head = none) (hne : head ≠ "")
    (hhead : record.headSHA = head) (hgen : record.ledgerGeneration = 0) :
    replay sum (records ++ [record]) head substantive =
      (replay sum records head substantive).apply sum substantive record := by
  have hnone : latestSnapshot (records ++ [record]) head = none := by
    rw [latestSnapshot_append_singleton, if_neg, h]
    intro hnew
    omega
  unfold replay
  rw [if_neg hne, if_neg hne, hnone, h]
  simp [hhead]

theorem replay_singleton (hne : head ≠ "") (hhead : record.headSHA = head) :
    replay sum [record] head substantive = ({} : Ledger).apply sum substantive record := by
  have hnil : latestSnapshot [] head = none := rfl
  have hempty : replay sum [] head substantive = {} := by
    unfold replay
    rw [if_neg hne]
    rfl
  rcases Nat.eq_zero_or_pos record.ledgerGeneration with hgen | hgen
  · have happ : replay sum ([] ++ [record]) head substantive = _ :=
      replay_append_legacy hnil hne hhead hgen
    rwa [hempty] at happ
  · have hnew : ∀ s ∈ latestSnapshot [] head, s.ledgerGeneration ≤ record.ledgerGeneration :=
      fun s hs => by cases hs
    exact replay_append_newest hne hhead hgen hnew

end snapshots

end Goobers.Findings
