import Goobers.SharedClaim.Protocol

/-!
# At most one owner holds an unexpired deadline

The record covers every deadline that has not passed: it names the deadline's
owner, and it expires no earlier than the deadline, seen on the provider's clock.
A deadline is computed from the caller's clock before the provider is asked, and
gives up one second for the truncated clock, so the expiry the store commits lies
beyond it. Nobody else can then be granted the record before the provider's clock
has reached the expiry.

The invariant says the same of acquisitions the store has committed whose reply
is still on its way, and it says what a compare-and-swap that can still succeed
would do. A swap against an old revision can no longer succeed, so nothing need be
said about it. That is what makes replies lost after the commit, and swaps that
arrive long after their caller gave up, harmless.
-/

namespace Goobers.SharedClaim

open List World

variable {offset : String → Int} {w : World}

variable {owner : Owner} {c : Call} {next : Record}

def World.Covers (offset : String → Int) (w : World) (owner : Owner) (deadline : Int) : Prop :=
  w.record.owner = owner ∧ deadline - offset owner.instance_ ≤ w.record.expiresAt

/-- A deadline that has not passed is protected. -/
def World.Safe (offset : String → Int) (w : World) (owner : Owner) (deadline : Int) : Prop :=
  w.clock offset owner < deadline → w.Covers offset owner deadline

/-- What a swap for an acquisition does if it succeeds now. -/
structure AcquireReady (offset : String → Int) (w : World) (c : Call) (ttl : Int) (next : Record) :
    Prop where
  taken : next.owner = c.owner
  free : w.record.owner = {} ∨ w.record.owner = c.owner ∨ w.record.expiresAt ≤ w.now
  long : c.deadline ttl - offset c.owner.instance_ ≤ next.expiresAt
  kept : w.record.owner = c.owner → w.record.expiresAt ≤ next.expiresAt

/-- What holds of one call in flight. -/
structure CallOk (offset : String → Int) (w : World) (c : Call) : Prop where
  named : c.owner ≠ {}
  begun : c.start ≤ w.clock offset c.owner
  present : ∀ seen clock, c.stage = .reading seen clock → c.waiting
  seen : ∀ revision record clock, c.stage = .reading (some (revision, record)) clock →
    revision ≤ w.revision ∧ (revision = w.revision → record = w.record)
  stamped : ∀ seen t, c.stage = .reading seen (some t) →
    t ≤ w.now ∧ c.start - offset c.owner.instance_ - second ≤ t
  fresh : ∀ revision next, c.stage = .swapping revision next → revision ≤ w.revision
  mute : c.kind = .confirmOwnerGone → ∀ revision next, c.stage ≠ .swapping revision next
  /-- A swap that can still succeed takes a free record and protects the deadline. -/
  acquiring : ∀ ttl next, c.kind = .acquire ttl → c.stage = .swapping w.revision next →
    AcquireReady offset w c ttl next
  /-- A release that can still succeed finds its owner stopped. -/
  releasing : ∀ next, c.kind = .release → c.stage = .swapping w.revision next →
    w.record.owner = c.owner ∧ ∀ deadline, (c.owner, deadline) ∉ w.deadlines
  /-- A committed acquisition is protected before its caller knows. -/
  acquired : ∀ ttl, c.kind = .acquire ttl → c.stage = .swapped → c.counted →
    w.Safe offset c.owner (c.deadline ttl)
  /-- While a release is under way its owner has stopped. -/
  stopped : c.kind = .release → c.waiting → ∀ deadline, (c.owner, deadline) ∉ w.deadlines

def Clash (revision : Nat) (r a : Call) : Prop :=
  r.kind = .release ∧ (∃ ttl, a.kind = .acquire ttl) ∧ a.counted ∧ a.owner = r.owner ∧
    (r.waiting ∨ (∃ next, r.stage = .swapping revision next) ∧ a.stage = .swapped)

/-- The protocol's invariant. -/
structure Inv (offset : String → Int) (w : World) : Prop where
  holders : ∀ p ∈ w.deadlines, p.1 ≠ {}
  safe : ∀ owner deadline, (owner, deadline) ∈ w.deadlines → w.Safe offset owner deadline
  ok : ∀ c ∈ w.calls, CallOk offset w c
  apart : ∀ r ∈ w.calls, ∀ a ∈ w.calls, ¬ Clash w.revision r a

theorem inv_start (now : Int) (revision : Nat) (record : Record) :
    Inv offset (start now revision record) where
  holders := nofun
  safe := nofun
  ok := by intro c h; simp [start] at h
  apart := by intro r h; simp [start] at h

/-! ## Later, with less -/

/-- The same call, possibly counting less or with its caller gone. -/
structure Call.Le (c' c : Call) : Prop where
  owner : c'.owner = c.owner
  kind : c'.kind = c.kind
  start : c'.start = c.start
  stage : c'.stage = c.stage
  counted : c'.counted → c.counted
  waiting : c'.waiting → c.waiting
  present : ∀ seen clock, c'.stage = .reading seen clock → c.waiting → c'.waiting

theorem Call.Le.refl (c : Call) : c.Le c := ⟨rfl, rfl, rfl, rfl, id, id, fun _ _ _ h => h⟩

/-- The record is the same, time may have passed, and deadlines may be fewer. -/
structure World.Later (w' w : World) : Prop where
  now : w.now ≤ w'.now
  revision : w'.revision = w.revision
  record : w'.record = w.record
  deadlines : ∀ p ∈ w'.deadlines, p ∈ w.deadlines

/-- And the calls in flight are fewer as well. -/
structure World.Le (w' w : World) : Prop extends World.Later w' w where
  calls : ∀ c' ∈ w'.calls, ∃ c ∈ w.calls, c'.Le c

/-- What is safe in a world stays safe in a later one. -/
theorem safe_le {w' : World} (hle : w'.Later w) {deadline : Int}
    (h : w.Safe offset owner deadline) :
    w'.Safe offset owner deadline := by
  intro hlive
  have hnow := hle.now
  unfold clock at hlive
  obtain ⟨ho, hd⟩ := h (by unfold clock; omega)
  exact ⟨by rw [hle.record]; exact ho, by rw [hle.record]; exact hd⟩

theorem callOk_le {w' : World} (hle : w'.Later w) {c' : Call} (hc : c'.Le c)
    (h : CallOk offset w c) :
    CallOk offset w' c' where
  named := hc.owner ▸ h.named
  begun := by
    have := h.begun
    have hnow := hle.now
    unfold clock at *
    rw [hc.start, hc.owner]
    omega
  present := by
    intro seen clock hs
    exact hc.present seen clock hs (h.present seen clock (hc.stage ▸ hs))
  seen := by
    intro revision record clock hs
    rw [hle.revision, hle.record]
    exact h.seen revision record clock (hc.stage ▸ hs)
  stamped := by
    intro seen t hs
    have := h.stamped seen t (hc.stage ▸ hs)
    have hnow := hle.now
    rw [hc.start, hc.owner]
    omega
  fresh := by
    intro revision next hs
    rw [hle.revision]
    exact h.fresh revision next (hc.stage ▸ hs)
  mute := by
    intro hk revision next hs
    exact h.mute (hc.kind ▸ hk) revision next (hc.stage ▸ hs)
  acquiring := by
    intro ttl next hk hs
    rw [hle.revision] at hs
    obtain ⟨htaken, hfree, hlong, hkept⟩ := h.acquiring ttl next (hc.kind ▸ hk) (hc.stage ▸ hs)
    refine ⟨hc.owner ▸ htaken, ?_, ?_, ?_⟩
    · rw [hle.record, hc.owner]
      exact hfree.imp_right (Or.imp_right fun hf => Int.le_trans hf hle.now)
    · rw [Call.deadline, hc.start, hc.owner]
      exact hlong
    · rw [hle.record, hc.owner]
      exact hkept
  releasing := by
    intro next hk hs
    rw [hle.revision] at hs
    obtain ⟨ho, hd⟩ := h.releasing next (hc.kind ▸ hk) (hc.stage ▸ hs)
    rw [hle.record, hc.owner]
    exact ⟨ho, fun deadline hmem => hd deadline (hle.deadlines _ hmem)⟩
  acquired := by
    intro ttl hk hs hcount
    have := safe_le hle (h.acquired ttl (hc.kind ▸ hk) (hc.stage ▸ hs) (hc.counted hcount))
    rw [Call.deadline, hc.start, hc.owner]
    exact this
  stopped := by
    intro hk hw deadline hmem
    rw [hc.owner] at hmem
    exact h.stopped (hc.kind ▸ hk) (hc.waiting hw) deadline (hle.deadlines _ hmem)

/-- **Less is still fine.** Ticks, finished calls, lost replies and stops all go this way. -/
theorem inv_le {w' : World} (h : Inv offset w) (hle : w'.Le w) : Inv offset w' where
  holders := fun p hp => h.holders p (hle.deadlines p hp)
  safe := fun owner deadline hmem => safe_le hle.toLater
    (h.safe owner deadline (hle.deadlines _ hmem))
  ok := by
    intro c' hc'
    obtain ⟨c, hc, hcle⟩ := hle.calls c' hc'
    exact callOk_le hle.toLater hcle (h.ok c hc)
  apart := by
    intro r' hr' a' ha' hclash
    obtain ⟨r, hr, hrle⟩ := hle.calls r' hr'
    obtain ⟨a, ha, hale⟩ := hle.calls a' ha'
    obtain ⟨hkind, ⟨ttl, hacq⟩, hcount, hown, hlive⟩ := hclash
    refine h.apart r hr a ha ⟨hrle.kind ▸ hkind, ⟨ttl, hale.kind ▸ hacq⟩,
      hale.counted hcount, ?_, ?_⟩
    · rw [← hale.owner, ← hrle.owner]
      exact hown
    · rcases hlive with hw | ⟨⟨next, hs⟩, hsw⟩
      · exact Or.inl (hrle.waiting hw)
      · exact Or.inr ⟨⟨next, by rw [← hrle.stage, ← hle.revision]; exact hs⟩, hale.stage ▸ hsw⟩

theorem finish_le (c : Call) : (w.finish c).Le w where
  now := Int.le_refl _
  revision := rfl
  record := rfl
  deadlines := fun _ h => h
  calls := fun c' hc' => ⟨c', mem_of_mem_erase hc', Call.Le.refl c'⟩

theorem inv_finish (h : Inv offset w) (c : Call) : Inv offset (w.finish c) :=
  inv_le h (finish_le c)

/-! ## A call begins, or moves on -/

/-- A new call is harmless when it clashes with none in flight. -/
theorem inv_begin (h : Inv offset w) (hok : CallOk offset w c)
    (hrel : ∀ a ∈ c :: w.calls, ¬ Clash w.revision c a)
    (hacq : ∀ r ∈ w.calls, ¬ Clash w.revision r c) : Inv offset (w.begin c) where
  holders := h.holders
  safe := h.safe
  ok := by
    intro c' hc'
    have hlater : (w.begin c).Later w := ⟨Int.le_refl _, rfl, rfl, fun _ hd => hd⟩
    rcases mem_cons.mp hc' with rfl | hc'
    · exact callOk_le hlater (Call.Le.refl _) hok
    · exact callOk_le hlater (Call.Le.refl _) (h.ok c' hc')
  apart := by
    intro r hr a ha
    rcases mem_cons.mp hr with rfl | hr'
    · exact hrel a ha
    · rcases mem_cons.mp ha with rfl | ha'
      · exact hacq r hr'
      · exact h.apart r hr' a ha'

theorem inv_moveTo (h : Inv offset w) (hc : c ∈ w.calls) (hw : c.waiting) {stage : Stage}
    (hns : stage ≠ .swapped) (hok : CallOk offset w { c with stage := stage }) :
    Inv offset (w.moveTo c stage) := by
  have hlater : (w.finish c).Later w := (finish_le c).toLater
  refine inv_begin (inv_finish h c) (callOk_le hlater (Call.Le.refl _) hok) ?_ ?_
  · -- a waiting release has no acquisition of its owner that counts, at any stage
    intro a ha hclash
    obtain ⟨hk, ⟨ttl, hacq⟩, hcount, hown, _⟩ := hclash
    rcases mem_cons.mp ha with rfl | ha
    · rw [show c.kind = .release from hk] at hacq
      cases hacq
    · exact h.apart c hc a (mem_of_mem_erase ha) ⟨hk, ⟨ttl, hacq⟩, hcount, hown, Or.inl hw⟩
  · intro r hr hclash
    obtain ⟨hk, hacq, hcount, hown, hlive⟩ := hclash
    rcases hlive with hrw | ⟨_, hsw⟩
    · exact h.apart r (mem_of_mem_erase hr) c hc ⟨hk, hacq, hcount, hown, Or.inl hrw⟩
    · exact absurd hsw hns

theorem callOk_new {kind : Kind} {counted : Bool} (hne : owner ≠ {})
    (hstop : kind = .release → ∀ deadline, (owner, deadline) ∉ w.deadlines) :
    CallOk offset w { owner := owner, kind := kind, start := w.clock offset owner,
                      counted := counted, waiting := true, stage := .reading none none } where
  named := hne
  begun := Int.le_refl _
  present := by intro seen clock _; rfl
  seen := nofun
  stamped := nofun
  fresh := nofun
  mute := nofun
  acquiring := nofun
  releasing := nofun
  acquired := nofun
  stopped := by intro hk _; exact hstop hk

theorem inv_callAcquire (h : Inv offset w) (owner : Owner) (ttl : Int) :
    Inv offset (w.step offset (.callAcquire owner ttl)) := by
  unfold step
  dsimp only
  split_ifs with hvalid
  · refine inv_begin h (callOk_new (validOwner_ne_empty hvalid.1) (by simp)) ?_ ?_
    · intro a _ hclash
      exact absurd hclash.1 (by simp)
    · intro r hr hclash
      obtain ⟨hk, _, hcount, hown, hlive⟩ := hclash
      rcases hlive with hw | ⟨_, hsw⟩
      · -- the new acquisition counts only if no release is under way
        simp only [decide_eq_true_eq] at hcount
        exact hcount ⟨r, hr, hk, hown.symm, hw⟩
      · cases hsw
  · exact h

theorem stop_le (owner : Owner) : (w.stop owner).Le w where
  now := Int.le_refl _
  revision := rfl
  record := rfl
  deadlines := fun _ hp => mem_of_mem_filter hp
  calls := by
    intro c' hc'
    obtain ⟨c, hc, rfl⟩ := mem_map.mp hc'
    refine ⟨c, hc, ?_⟩
    split
    · exact ⟨rfl, rfl, rfl, rfl, by simp, id, fun _ _ _ hw => hw⟩
    · exact Call.Le.refl c

/-- A release drops its owner's deadlines first, so its tombstone takes nothing away. -/
theorem inv_callRelease (h : Inv offset w) (owner : Owner) :
    Inv offset (w.step offset (.callRelease owner)) := by
  unfold step
  dsimp only
  split_ifs with hvalid
  · have hstop : ∀ deadline, (owner, deadline) ∉ (w.stop owner).deadlines := by
      intro deadline hmem
      have := of_mem_filter hmem
      simp at this
    have huncounted : ∀ a ∈ (w.stop owner).calls, a.owner = owner → a.counted = false := by
      intro a ha hown
      obtain ⟨c, _, rfl⟩ := mem_map.mp ha
      split_ifs with hne
      · rfl
      · split at hown
        · exact absurd ‹_› hne
        · exact absurd hown hne
    refine inv_begin (inv_le h (stop_le owner))
      (callOk_new (w := w.stop owner) (validOwner_ne_empty hvalid) (fun _ => hstop)) ?_ ?_
    · intro a ha hclash
      obtain ⟨_, ⟨ttl, hacq⟩, hcount, hown, _⟩ := hclash
      rcases mem_cons.mp ha with rfl | ha
      · cases hacq
      · rw [huncounted a ha hown] at hcount
        cases hcount
    · intro r _ hclash
      obtain ⟨_, ⟨ttl, hacq⟩, _⟩ := hclash
      cases hacq
  · exact h

theorem inv_callConfirm (h : Inv offset w) (owner : Owner) :
    Inv offset (w.step offset (.callConfirm owner)) := by
  unfold step
  dsimp only
  split_ifs with hvalid
  · refine inv_begin h (callOk_new (validOwner_ne_empty hvalid) (by simp)) ?_ ?_
    · intro a _ hclash
      exact absurd hclash.1 (by simp)
    · intro r _ hclash
      obtain ⟨_, ⟨ttl, hacq⟩, _⟩ := hclash
      cases hacq
  · exact h

/-! ## The read -/

theorem callOk_reading (h : CallOk offset w c) (hw : c.waiting) {seen : Option (Nat × Record)}
    {clock : Option Int} (hseen : ∀ revision record, seen = some (revision, record) →
      revision ≤ w.revision ∧ (revision = w.revision → record = w.record))
    (hclock : ∀ t, clock = some t →
      t ≤ w.now ∧ c.start - offset c.owner.instance_ - second ≤ t) :
    CallOk offset w { c with stage := .reading seen clock } where
  named := h.named
  begun := h.begun
  present := fun _ _ _ => hw
  seen := by
    intro revision record clock' hs
    simp only [Stage.reading.injEq] at hs
    exact hseen revision record hs.1
  stamped := by
    intro seen' t hs
    simp only [Stage.reading.injEq] at hs
    exact hclock t hs.2
  fresh := nofun
  mute := nofun
  acquiring := nofun
  releasing := nofun
  acquired := nofun
  stopped := h.stopped

theorem inv_lookUp (h : Inv offset w) (c : Call) : Inv offset (w.step offset (.lookUp c)) := by
  unfold step
  dsimp only
  split_ifs with hc
  · split
    · rename_i clock hs
      have hok := h.ok c hc
      have hw := hok.present _ _ hs
      refine inv_moveTo h hc hw (by simp) (callOk_reading hok hw ?_ ?_)
      · intro revision record heq
        simp only [Option.some.injEq, Prod.mk.injEq] at heq
        exact ⟨by omega, fun _ => heq.2.symm⟩
      · intro t ht
        subst ht
        exact hok.stamped _ t hs
    · exact h
  · exact h

theorem inv_stamp (h : Inv offset w) (c : Call) : Inv offset (w.step offset (.stamp c)) := by
  unfold step
  dsimp only
  split_ifs with hc
  · split
    · rename_i seen hs
      have hok := h.ok c hc
      have hw := hok.present _ _ hs
      refine inv_moveTo h hc hw (by simp) (callOk_reading hok hw ?_ ?_)
      · intro revision record heq
        subst heq
        exact hok.seen revision record none hs
      · -- the truncated clock is at most one second behind
        intro t ht
        have hbegun := hok.begun
        have hpos : (0 : Int) < second := by decide
        have hmod := Int.emod_nonneg w.now (by decide : second ≠ 0)
        have hlt := Int.emod_lt_of_pos w.now hpos
        simp only [Option.some.injEq] at ht
        unfold truncateSecond at ht
        unfold clock at hbegun
        omega
    · exact h
  · exact h

/-! ## The decision -/

/-- What a call carries to the store is only good for the revision it read. -/
theorem callOk_swapping (h : CallOk offset w c) {revision : Nat} (hrev : revision ≤ w.revision)
    (hmute : c.kind ≠ .confirmOwnerGone)
    (hacq : ∀ ttl, c.kind = .acquire ttl → revision = w.revision →
      AcquireReady offset w { c with stage := .swapping revision next } ttl next)
    (hrel : c.kind = .release → revision = w.revision →
      w.record.owner = c.owner ∧ ∀ deadline, (c.owner, deadline) ∉ w.deadlines) :
    CallOk offset w { c with stage := .swapping revision next } where
  named := h.named
  begun := h.begun
  present := nofun
  seen := nofun
  stamped := nofun
  fresh := by
    intro revision' next' hs
    simp only [Stage.swapping.injEq] at hs
    omega
  mute := fun hk => absurd hk hmute
  acquiring := by
    intro ttl next' hk hs
    simp only [Stage.swapping.injEq] at hs
    obtain ⟨hr, rfl⟩ := hs
    exact hacq ttl hk hr
  releasing := by
    intro next' hk hs
    simp only [Stage.swapping.injEq] at hs
    exact hrel hk hs.1
  acquired := nofun
  stopped := h.stopped

/-- **The decision is sound**: a swap sent against the current revision would protect its owner. -/
theorem inv_decide (h : Inv offset w) (hc : c ∈ w.calls) {revision : Nat} {record : Record}
    {now : Int} (hs : c.stage = .reading (some (revision, record)) (some now)) :
    Inv offset (w.decide c ⟨record, revision, now⟩) := by
  have hok := h.ok c hc
  have hw := hok.present _ _ hs
  obtain ⟨hrev, hsame⟩ := hok.seen revision record _ hs
  obtain ⟨hnow, hstart⟩ := hok.stamped _ now hs
  unfold World.decide
  cases hk : c.kind with
  | confirmOwnerGone => exact inv_finish h c
  | acquire ttl =>
    dsimp only
    split
    · exact inv_finish h c
    · rename_i next hnext
      obtain ⟨htaken, hfree, hlong, hkept⟩ := acquireRecord_spec hnext
      refine inv_moveTo h hc hw (by simp) (callOk_swapping hok hrev (by simp [hk]) ?_
        (by simp [hk]))
      intro ttl' hk' hcur
      obtain rfl : ttl = ttl' := by simpa [hk] using hk'
      -- still the revision that was read, so the record is the one observed
      have hrec := hsame hcur
      subst hrec
      refine ⟨htaken, ?_, ?_, hkept⟩
      · exact hfree.imp_right (Or.imp_right fun hf => Int.le_trans hf hnow)
      · unfold Call.deadline
        dsimp only at hlong ⊢
        omega
  | release =>
    dsimp only
    split
    · rename_i next hnext
      obtain ⟨hown, _⟩ := releaseRecord_spec hnext
      refine inv_moveTo h hc hw (by simp) (callOk_swapping hok hrev (by simp [hk])
        (by simp [hk]) ?_)
      intro _ hcur
      rw [← hsame hcur]
      exact ⟨hown, hok.stopped hk hw⟩
    · exact inv_finish h c

theorem inv_observe (h : Inv offset w) (c : Call) : Inv offset (w.step offset (.observe c)) := by
  unfold step
  dsimp only
  split_ifs with hc
  · split
    · rename_i revision record now hs
      exact inv_decide h hc hs
    · exact h
  · exact h

/-! ## The swap -/

/-- **A commit leaves every deadline that has not passed protected.** -/
theorem safe_committed (hok : CallOk offset w c) (hs : c.stage = .swapping w.revision next)
    (hne : owner ≠ {}) (hstop : c.kind = .release → owner ≠ c.owner) {deadline : Int}
    (h : w.Safe offset owner deadline) : (w.committed c next).Safe offset owner deadline := by
  intro hlive
  have hlive' : w.clock offset owner < deadline := hlive
  obtain ⟨hown, hcover⟩ := h hlive'
  cases hk : c.kind with
  | confirmOwnerGone => exact absurd hs (hok.mute hk _ _)
  | release => exact absurd ((hok.releasing next hk hs).1 ▸ hown.symm) (hstop hk)
  | acquire ttl =>
    obtain ⟨htaken, hfree, _, hkept⟩ := hok.acquiring ttl next hk hs
    rcases hfree with hf | hf | hf
    · exact absurd (hown.symm.trans hf) hne
    · -- a renewal by the same owner does not shorten the lease
      have hlonger := hkept hf
      refine ⟨htaken.trans (hf.symm.trans hown), ?_⟩
      show deadline - offset owner.instance_ ≤ next.expiresAt
      omega
    · -- another owner gets the record only when the deadline has passed
      unfold clock at hlive'
      omega

/-- A commit moves the revision on, so every other swap in flight will fail. -/
theorem callOk_committed_other {a : Call} (hok : CallOk offset w c)
    (hs : c.stage = .swapping w.revision next) (ha : CallOk offset w a)
    (hapart : ¬ Clash w.revision c a) : CallOk offset (w.committed c next) a where
  named := ha.named
  begun := ha.begun
  present := ha.present
  seen := by
    intro revision record clock hst
    have hle := (ha.seen revision record clock hst).1
    show revision ≤ w.revision + 1 ∧ (revision = w.revision + 1 → _)
    exact ⟨by omega, by omega⟩
  stamped := ha.stamped
  fresh := by
    intro revision next' hst
    have hle := ha.fresh revision next' hst
    show revision ≤ w.revision + 1
    omega
  mute := ha.mute
  acquiring := by
    intro ttl next' _ hst
    have hle : w.revision + 1 ≤ w.revision := ha.fresh _ next' hst
    omega
  releasing := by
    intro next' _ hst
    have hle : w.revision + 1 ≤ w.revision := ha.fresh _ next' hst
    omega
  acquired := by
    intro ttl hk hst hcount
    refine safe_committed hok hs ha.named ?_ (ha.acquired ttl hk hst hcount)
    intro hrel hown
    exact hapart ⟨hrel, ⟨ttl, hk⟩, hcount, hown, Or.inr ⟨⟨next, hs⟩, hst⟩⟩
  stopped := ha.stopped

theorem callOk_committed_self (hok : CallOk offset w c) (hs : c.stage = .swapping w.revision next) :
    CallOk offset (w.committed c next) { c with stage := .swapped } where
  named := hok.named
  begun := hok.begun
  present := nofun
  seen := nofun
  stamped := nofun
  fresh := nofun
  mute := nofun
  acquiring := nofun
  releasing := nofun
  acquired := by
    intro ttl hk _ _ _
    obtain ⟨htaken, _, hlong, _⟩ := hok.acquiring ttl next hk hs
    exact ⟨htaken, hlong⟩
  stopped := hok.stopped

section
variable (h : Inv offset w)
include h

theorem apart_committed (hc : c ∈ w.calls) {r a : Call} (hr : r ∈ (w.committed c next).calls)
    (ha : a ∈ (w.committed c next).calls) :
    ¬ Clash (w.revision + 1) r a := by
  intro hclash
  obtain ⟨hk, hacq, hcount, hown, hlive⟩ := hclash
  -- both calls stand for calls that were in flight before
  have hback : ∀ x ∈ (w.committed c next).calls, ∃ y ∈ w.calls, y.kind = x.kind ∧
      y.counted = x.counted ∧ y.owner = x.owner ∧ y.waiting = x.waiting ∧
      (x.stage = .swapped ∨ x.stage = y.stage) :=
    forall_mem_cons.mpr ⟨⟨c, hc, rfl, rfl, rfl, rfl, .inl rfl⟩,
      fun x hx => ⟨x, mem_of_mem_erase hx, rfl, rfl, rfl, rfl, .inr rfl⟩⟩
  obtain ⟨r', hr', hrk, _, hro, hrw, hrs⟩ := hback r hr
  obtain ⟨a', ha', hak, hac, hao, _, _⟩ := hback a ha
  refine h.apart r' hr' a' ha' ⟨hrk.trans hk, ?_, hac.trans hcount, ?_, Or.inl ?_⟩
  · obtain ⟨ttl, hacq⟩ := hacq
    exact ⟨ttl, hak.trans hacq⟩
  · rw [hao, hro]
    exact hown
  · rcases hlive with hw | ⟨⟨next', hst⟩, _⟩
    · rw [hrw]
      exact hw
    · rcases hrs with hsw | hsame
      · rw [hsw] at hst
        cases hst
      · have hle := (h.ok r' hr').fresh _ next' (hsame ▸ hst)
        omega

/-- The store commits: the one step that changes the record. -/
theorem inv_committed (hc : c ∈ w.calls) (hs : c.stage = .swapping w.revision next) :
    Inv offset (w.committed c next) where
  holders := h.holders
  safe := by
    intro owner deadline hmem
    have hok := h.ok c hc
    refine safe_committed hok hs (h.holders _ hmem) ?_ (h.safe owner deadline hmem)
    intro hrel hown
    exact (hok.releasing next hrel hs).2 deadline (hown ▸ hmem)
  ok := by
    refine forall_mem_cons.mpr ⟨callOk_committed_self (h.ok c hc) hs, fun a ha => ?_⟩
    have ha' := mem_of_mem_erase ha
    exact callOk_committed_other (h.ok c hc) hs (h.ok a ha') (h.apart c hc a ha')
  apart := fun _ hr _ ha => apart_committed h hc hr ha

theorem inv_swap (c : Call) : Inv offset (w.step offset (.swap c)) := by
  unfold step
  dsimp only
  split_ifs with hc
  · split
    · rename_i revision next hs
      split_ifs with hcur
      · subst hcur
        exact inv_committed h hc hs
      · exact inv_finish h c
    · exact h
  · exact h

/-! ## The acknowledgement -/

/-- The reply of a committed acquisition: its deadline is within the record's expiry. -/
theorem inv_granted (hc : c ∈ w.calls) {ttl : Int} (hk : c.kind = .acquire ttl)
    (hs : c.stage = .swapped) (hcount : c.counted) :
    Inv offset { w.finish c with deadlines := (c.owner, c.deadline ttl) :: w.deadlines } where
  holders := forall_mem_cons.mpr ⟨(h.ok c hc).named, h.holders⟩
  safe := by
    intro owner deadline hmem
    rcases mem_cons.mp hmem with heq | hmem
    · obtain ⟨rfl, rfl⟩ := heq
      exact (h.ok c hc).acquired ttl hk hs hcount
    · exact h.safe owner deadline hmem
  ok := by
    intro a ha
    have ha' := mem_of_mem_erase ha
    have hok := h.ok a ha'
    -- no release of this owner is under way or can still succeed
    have hother : ∀ r ∈ w.calls, r.kind = .release →
        (r.waiting ∨ ∃ next, r.stage = .swapping w.revision next) → c.owner ≠ r.owner := by
      intro r hr hrel hlive hown
      refine h.apart r hr c hc ⟨hrel, ⟨ttl, hk⟩, hcount, hown, ?_⟩
      rcases hlive with hw | hsw
      · exact Or.inl hw
      · exact Or.inr ⟨hsw, hs⟩
    refine ⟨hok.named, hok.begun, hok.present, hok.seen, hok.stamped, hok.fresh, hok.mute, ?_, ?_,
      hok.acquired, ?_⟩
    · intro ttl' next' hk' hst
      exact { hok.acquiring ttl' next' hk' hst with }
    · intro next hrel hst
      obtain ⟨hown, hnone⟩ := hok.releasing next hrel hst
      refine ⟨hown, fun deadline hmem => ?_⟩
      rcases mem_cons.mp hmem with heq | hmem
      · simp only [Prod.mk.injEq] at heq
        exact hother a ha' hrel (Or.inr ⟨next, hst⟩) heq.1.symm
      · exact hnone deadline hmem
    · intro hrel hw deadline hmem
      rcases mem_cons.mp hmem with heq | hmem
      · simp only [Prod.mk.injEq] at heq
        exact hother a ha' hrel (Or.inl hw) heq.1.symm
      · exact hok.stopped hrel hw deadline hmem
  apart := by
    intro r hr a ha
    exact h.apart r (mem_of_mem_erase hr) a (mem_of_mem_erase ha)

theorem inv_acknowledge (c : Call) :
    Inv offset (w.step offset (.acknowledge c)) := by
  unfold step
  dsimp only
  split_ifs with hc
  · split
    · rename_i ttl hs hk
      split_ifs with hlive
      · exact inv_granted h hc.1 hk hs hlive.1
      · exact inv_finish h c
    · exact inv_finish h c
    · exact h
  · exact h

theorem inv_giveUp (c : Call) : Inv offset (w.step offset (.giveUp c)) := by
  unfold step
  dsimp only
  split_ifs with hc
  · split
    · rename_i revision next hs
      refine inv_le h ⟨⟨Int.le_refl _, rfl, rfl, fun _ hp => hp⟩, ?_⟩
      intro c' hc'
      rcases mem_cons.mp hc' with rfl | hc'
      · refine ⟨c, hc, rfl, rfl, rfl, rfl, by simp, by simp, ?_⟩
        intro seen clock hst
        exact absurd (hs.symm.trans hst) (by simp)
      · exact ⟨c', mem_of_mem_erase hc', Call.Le.refl c'⟩
    · exact inv_finish h c
  · exact h

/-! ## Every run -/

/-- Every action keeps the invariant. -/
theorem inv_step (a : Action) : Inv offset (w.step offset a) := by
  cases a with
  | tick d =>
    refine inv_le h ⟨⟨?_, rfl, rfl, fun _ hp => hp⟩, fun c hc => ⟨c, hc, Call.Le.refl c⟩⟩
    show w.now ≤ w.now + d
    omega
  | callAcquire owner ttl => exact inv_callAcquire h owner ttl
  | callRelease owner => exact inv_callRelease h owner
  | callConfirm owner => exact inv_callConfirm h owner
  | lookUp c => exact inv_lookUp h c
  | stamp c => exact inv_stamp h c
  | observe c => exact inv_observe h c
  | swap c => exact inv_swap h c
  | acknowledge c => exact inv_acknowledge h c
  | giveUp c => exact inv_giveUp h c

theorem inv_run (actions : List Action) : Inv offset (w.run offset actions) := by
  induction actions generalizing w with
  | nil => exact h
  | cons a actions ih => exact ih (inv_step h a)

end

def World.Holds (offset : String → Int) (w : World) (owner : Owner) : Prop :=
  ∃ deadline, (owner, deadline) ∈ w.deadlines ∧ w.clock offset owner < deadline

theorem record_owner_of_holds (h : Inv offset w) (hold : w.Holds offset owner) :
    w.record.owner = owner := by
  obtain ⟨deadline, hmem, hlive⟩ := hold
  exact (h.safe owner deadline hmem hlive).1

/--
**Lease exclusivity.** Whatever the record was at first, whatever the offsets of
the local clocks, and however the calls of any number of instances interleave, two
owners never hold an unexpired deadline at the same moment.
-/
theorem lease_exclusive (offset : String → Int) (now : Int) (revision : Nat) (record : Record)
    (actions : List Action) (owner₁ owner₂ : Owner)
    (h₁ : ((World.start now revision record).run offset actions).Holds offset owner₁)
    (h₂ : ((World.start now revision record).run offset actions).Holds offset owner₂) :
    owner₁ = owner₂ := by
  have hinv : Inv offset ((start now revision record).run offset actions) :=
    inv_run (inv_start now revision record) actions
  rw [← record_owner_of_holds hinv h₁, record_owner_of_holds hinv h₂]

/-- An owner on an instance whose clock runs five seconds ahead. -/
def sampleOwner : Owner := ⟨"one", "run", "token"⟩

/-- Its rival, whose clock is three seconds behind. -/
def sampleRival : Owner := ⟨"two", "run", "token"⟩

def sampleOffset (name : String) : Int := if name = "one" then 5 * second else -3 * second

def sampleCall (owner : Owner) (ttl start : Int) (stage : Stage) : Call :=
  { owner := owner, kind := .acquire ttl, start := start, counted := true, waiting := true,
    stage := stage }

/-- The provider answers a call's read with this record and this instant. -/
def sampleRead (call : Stage → Call) (revision : Nat) (record : Record) (now : Int) :
    List Action :=
  [.lookUp (call (.reading none none)),
   .stamp (call (.reading (some (revision, record)) none)),
   .observe (call (.reading (some (revision, record)) (some now)))]

/-- The rival's first acquisition, its reply lost. -/
def sampleLost : Record := ⟨1, sampleRival, 1010 * second⟩

/--
At `t = 1000 s` the rival's acquisition commits and its reply is lost, so the owner is refused.
When that lease has run out both ask again and read the same revision. The owner's swap is the
first, the rival's fails, and four seconds later the owner's lease still runs.
-/
def sampleRun : List Action :=
  let lost := sampleCall sampleRival (10 * second) (997 * second)
  let refused := sampleCall sampleOwner (60 * second) (1005 * second)
  let granted := sampleCall sampleOwner (60 * second) 1016500000000
  let beaten := sampleCall sampleRival (10 * second) 1008500000000
  .callAcquire sampleRival (10 * second) :: sampleRead lost 0 {} (1000 * second) ++
    [.giveUp (lost (.swapping 0 sampleLost)),
     .swap { lost (.swapping 0 sampleLost) with counted := false, waiting := false },
     .callAcquire sampleOwner (60 * second)] ++
    sampleRead refused 1 sampleLost (1000 * second) ++
    [.tick 11500000000, .callAcquire sampleOwner (60 * second),
     .callAcquire sampleRival (10 * second)] ++
    sampleRead granted 1 sampleLost (1011 * second) ++
    sampleRead beaten 1 sampleLost (1011 * second) ++
    [.swap (granted (.swapping 1 ⟨1, sampleOwner, 1071 * second⟩)),
     .swap (beaten (.swapping 1 ⟨1, sampleRival, 1021 * second⟩)),
     .acknowledge (granted .swapped),
     .tick 4000000000]

theorem sampleRun_exclusive :
    ((World.start (1000 * second) 0 {}).run sampleOffset sampleRun).Holds sampleOffset sampleOwner ∧
      ∀ owner, ((World.start (1000 * second) 0 {}).run sampleOffset sampleRun).Holds
        sampleOffset owner → owner = sampleOwner := by
  have hold : ((start (1000 * second) 0 {}).run sampleOffset sampleRun).Holds
      sampleOffset sampleOwner := ⟨1075500000000, by decide, by decide⟩
  exact ⟨hold, fun owner h => lease_exclusive _ _ _ _ _ owner sampleOwner h hold⟩

end Goobers.SharedClaim
