import Goobers.CloudLease.Takeover

/-!
# An epoch belongs to one manager

The epoch fences a controller that has been overtaken: every acquisition and every release
raises it, and each statement of a handle compares it with the row. This does not rest on the
clocks. However late a reply is processed, no two managers are told one epoch, and a handle
whose epoch is past never finds a row of its own again.
-/

namespace Goobers.CloudLease

open World

variable {ι : Type} {f : Fleet ι} {w w' : World ι} {m : ι} {epoch : Nat}

/-- The manager has been told the epoch, or will be if the reply is processed. -/
def World.Granted (w : World ι) (m : ι) (epoch : Nat) : Prop :=
  (∃ handle ∈ w.handles, handle.manager = m ∧ handle.epoch = epoch) ∨
    ∃ c ∈ w.calls, c.stage.stamp ≠ none ∧ c.manager = m ∧ c.epoch = epoch

/-- What the transaction is about to write agrees with the epoch that is there. -/
def Transaction.Follows (current : Nat) : Transaction ι → Prop
  | .acquired _ _ epoch _ => epoch = current + 1
  | .released epoch => epoch = current
  | _ => True

/-- No two managers were granted one epoch, and none above that of the row. -/
structure Fenced (w : World ι) : Prop where
  rows : w.lease.epoch = w.heartbeat.epoch
  bound : ∀ m epoch, w.Granted m epoch → epoch ≤ w.lease.epoch
  one : ∀ m m' epoch, w.Granted m epoch → w.Granted m' epoch → m = m'
  lock : ∀ t, w.lock = some t → t.Follows w.lease.epoch

/-- A step that raises no epoch and tells nobody a new one. -/
theorem Fenced.same (h : Fenced w) (hlease : w'.lease = w.lease)
    (hrow : w'.heartbeat.epoch = w.heartbeat.epoch)
    (hlock : w'.lock = w.lock ∨ w'.lock = none ∨ ∃ m epoch, w'.lock = some (.releasing m epoch))
    (hgranted : ∀ {m epoch}, w'.Granted m epoch → w.Granted m epoch) :
    Fenced w' ∧ w.lease.epoch ≤ w'.lease.epoch := by
  refine ⟨⟨by rw [hlease, hrow, h.rows], fun m epoch hg => ?_, fun m m' epoch hg hg' => ?_,
    fun t ht => ?_⟩, Nat.le_of_eq (by rw [hlease])⟩
  · exact hlease ▸ h.bound m epoch (hgranted hg)
  · exact h.one m m' epoch (hgranted hg) (hgranted hg')
  · rcases hlock with heq | heq | ⟨m, epoch, heq⟩ <;> rw [heq] at ht
    · exact hlease ▸ h.lock t ht
    · cases ht
    · cases ht
      trivial

theorem Calm.granted (hcalm : Calm w w') (h : w'.Granted m epoch) : w.Granted m epoch := by
  rcases h with ⟨handle, hh, hm, he⟩ | ⟨c, hc, hs, hm, he⟩
  · exact .inl ⟨handle, hcalm.handles ▸ hh, hm, he⟩
  · obtain ⟨stamp, hs⟩ := Option.ne_none_iff_exists'.mp hs
    obtain ⟨c₀, hc₀, hm₀, he₀, hs₀⟩ := hcalm.calls c hc stamp hs
    exact .inr ⟨c₀, hc₀, Option.ne_none_iff_exists'.mpr ⟨stamp, hs₀⟩, hm₀.trans hm, he₀.trans he⟩

/-- **A commit tells one manager an epoch nobody has been told**, or a release passes one over. -/
theorem Fenced.commit (h : Fenced w) :
    Fenced (w.commit f) ∧ w.lease.epoch ≤ (w.commit f).lease.epoch := by
  unfold World.commit
  split
  -- the epoch of the new row is above all that were granted
  · rename_i m holder epoch stamp hlock
    have hnext : epoch = w.lease.epoch + 1 := h.lock _ hlock
    have hnew : ∀ m' e, World.Granted { w with calls :=
        { manager := m, epoch := epoch, stage := .committed stamp } :: w.calls } m' e →
        w.Granted m' e ∨ m' = m ∧ e = epoch := by
      rintro m' e (hg | ⟨c, hc, hs, rfl, rfl⟩)
      · exact .inl (.inl hg)
      · rcases List.mem_cons.mp hc with rfl | hc
        · exact .inr ⟨rfl, rfl⟩
        · exact .inl (.inr ⟨c, hc, hs, rfl, rfl⟩)
    refine ⟨⟨rfl, fun m' e hg => ?_, fun m₁ m₂ e hg₁ hg₂ => ?_, nofun⟩, ?_⟩
    · show e ≤ epoch
      rcases hnew m' e hg with hg | ⟨_, rfl⟩
      · have := h.bound m' e hg
        omega
      · exact Nat.le_refl _
    · rcases hnew m₁ e hg₁ with hold₁ | ⟨hm₁, he₁⟩ <;>
        rcases hnew m₂ e hg₂ with hold₂ | ⟨hm₂, he₂⟩
      · exact h.one m₁ m₂ e hold₁ hold₂
      · have := h.bound m₁ e hold₁
        omega
      · have := h.bound m₂ e hold₂
        omega
      · rw [hm₁, hm₂]
    · show w.lease.epoch ≤ epoch
      omega
  -- a release raises the epoch and grants nothing
  · rename_i epoch hlock
    have hsame : epoch = w.lease.epoch := h.lock _ hlock
    refine ⟨⟨rfl, fun m e hg => ?_, h.one, nofun⟩, ?_⟩
    · have hle : e ≤ w.lease.epoch := h.bound m e hg
      show e ≤ epoch + 1
      omega
    · show w.lease.epoch ≤ epoch + 1
      omega
  · exact ⟨h, Nat.le_refl _⟩

variable [DecidableEq ι]

/-- The locked transaction may take the lease over, and then only with a higher epoch. -/
theorem Fenced.update (h : Fenced w) :
    Fenced (w.update f) ∧ w.lease.epoch ≤ (w.update f).lease.epoch := by
  have hlocked : ∀ t : Transaction ι, t.Follows w.lease.epoch →
      Fenced { w with lock := some t } ∧ w.lease.epoch ≤ w.lease.epoch := by
    intro t ht
    refine ⟨⟨h.rows, h.bound, h.one, ?_⟩, Nat.le_refl _⟩
    rintro _ ⟨⟩
    exact ht
  unfold World.update
  split
  · exact hlocked _ rfl
  · split
    · exact ⟨h, Nat.le_refl _⟩
    · split_ifs with hheld
      · exact hlocked _ hheld.2.2.symm
      · exact ⟨⟨h.rows, h.bound, h.one, nofun⟩, Nat.le_refl _⟩
  · exact ⟨h, Nat.le_refl _⟩

/-- **Every action keeps the epochs apart** and lowers none. -/
theorem Fenced.step (h : Fenced w) (a : Action ι) :
    Fenced (w.step f a) ∧ w.lease.epoch ≤ (w.step f a).lease.epoch := by
  have hcalm : ∀ {w'}, Calm w w' → Fenced w' ∧ w.lease.epoch ≤ w'.lease.epoch :=
    fun hc => h.same hc.lease (by rw [hc.heartbeat]) hc.lock hc.granted
  have hidle := hcalm (Calm.refl w)
  cases a with
  | tick d => exact hcalm { Calm.refl w with now := by show w.now ≤ w.now + d; omega }
  | lockForAcquire m =>
    simp only [World.step, World.lockForAcquire]
    split_ifs
    · exact hidle
    · refine ⟨⟨h.rows, h.bound, h.one, ?_⟩, Nat.le_refl _⟩
      rintro _ ⟨⟩
      trivial
    · exact hidle
  | update => exact h.update
  | commit => exact h.commit
  | rollback => exact hcalm { Calm.refl w with lock := .inr (.inl rfl) }
  | verify c =>
    simp only [World.step]
    split_ifs with hc
    · split
      · rename_i stamp hstage
        exact hcalm (calm_verify hc hstage)
      · exact hidle
    · exact hidle
  | renew handle =>
    simp only [World.step, World.renew]
    split_ifs with hh
    · -- the call tells the manager the epoch its handle has
      refine h.same rfl rfl (.inl rfl) ?_
      rintro m epoch (hg | ⟨c, hc, hs, hm, he⟩)
      · exact .inl hg
      · rcases List.mem_cons.mp hc with rfl | hc
        · exact .inl ⟨handle, hh.1, hm, he⟩
        · exact .inr ⟨c, hc, hs, hm, he⟩
    · exact hidle
    · exact hidle
  | callRelease handle =>
    simp only [World.step]
    split
    · exact hcalm (calm_callRelease handle.manager handle.epoch)
    · exact hidle
  | lockForRelease c =>
    simp only [World.step]
    split
    · exact hcalm (calm_lockForRelease c)
    · exact hidle
  | reply c =>
    simp only [World.step]
    split_ifs with hc
    · by_cases hs : c.stage.stamp = none
      · cases hstage : c.stage <;> simp [hstage, Stage.stamp] at hs
        exact hcalm (by simpa [World.reply, hstage] using Calm.refl w)
      refine h.same (reply_lease c) (by rw [reply_heartbeat]) (.inl (reply_lock c)) ?_
      rintro m epoch (⟨handle, hh, hm, he⟩ | ⟨c', hc', hrest⟩)
      · rcases mem_handles_reply hh with hh | ⟨hm', he', _⟩
        · exact .inl ⟨handle, hh, hm, he⟩
        · exact .inr ⟨c, hc, hs, hm'.symm.trans hm, he'.symm.trans he⟩
      · exact .inr ⟨c', mem_calls_reply hc', hrest⟩
    · exact hidle
  | lose c => exact hcalm (calm_finish c)

/-- The run lemma: fences hold all along, and the epoch of the row never falls. -/
theorem Fenced.run (h : Fenced w) (actions : List (Action ι)) :
    Fenced (w.run f actions) ∧ w.lease.epoch ≤ (w.run f actions).lease.epoch := by
  induction actions generalizing w with
  | nil => exact ⟨h, Nat.le_refl _⟩
  | cons a actions ih =>
    obtain ⟨hstep, hle⟩ := h.step (f := f) a
    obtain ⟨hrun, hle'⟩ := ih hstep
    exact ⟨hrun, Nat.le_trans hle hle'⟩

/--
**Epochs fence.** In every run of any number of managers, with replies processed however late
or never, two handles with one epoch are one manager's, and no handle's epoch is above the
row's, which never falls. Once the row's epoch has passed a handle's, the handle's statements
match no row again, so its renewals write nothing.
-/
theorem epoch_fences (f : Fleet ι) (now : Int) (actions : List (Action ι)) :
    let w := (start now).run f actions
    (∀ handle ∈ w.handles, handle.epoch ≤ w.lease.epoch ∧
      ∀ other ∈ w.handles, other.epoch = handle.epoch → other.manager = handle.manager) ∧
    ∀ later, w.lease.epoch ≤ (w.run f later).lease.epoch ∧
      ∀ handle ∈ w.handles, handle.epoch < w.lease.epoch →
        ¬ (w.run f later).Owns f handle.manager handle.epoch ∧
          (w.run f later).step f (.renew handle) = w.run f later := by
  intro w
  have hnone : ∀ m epoch, ¬ (start now : World ι).Granted m epoch := by
    rintro m epoch (⟨handle, hh, _⟩ | ⟨c, hc, _⟩)
    · cases hh
    · cases hc
  have hstart : Fenced (start now : World ι) :=
    ⟨rfl, fun m epoch hg => absurd hg (hnone m epoch), fun m _ e hg => absurd hg (hnone m e), nofun⟩
  have hw : Fenced w := (hstart.run actions).1
  refine ⟨fun handle hh => ⟨hw.bound _ _ (.inl ⟨handle, hh, rfl, rfl⟩), ?_⟩, fun later => ?_⟩
  · intro other ho heq
    exact hw.one _ _ _ (.inl ⟨other, ho, rfl, heq⟩) (.inl ⟨handle, hh, rfl, rfl⟩)
  obtain ⟨hlater, hle⟩ := hw.run (f := f) later
  refine ⟨hle, fun handle _ hpast => ?_⟩
  have howns : ¬ (w.run f later).Owns f handle.manager handle.epoch := by
    rintro ⟨_, hepoch⟩
    have := hlater.rows
    omega
  exact ⟨howns, by simp only [World.step, World.renew, if_neg howns, ite_self]⟩

end Goobers.CloudLease
