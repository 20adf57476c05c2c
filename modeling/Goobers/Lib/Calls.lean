import Mathlib.Data.List.Basic

/-!
# Programs that can be cut anywhere

A program here is a tree of calls to something outside it: a file system, a service.
Between two calls it only computes, so the calls are the places where it can be
stopped. A call does what `eff` says and is answered; or it fails without an effect; or
it takes effect and the answer is lost, and the program sees an error. At any of these
the program itself may end for good.

`Ensures answers P p Q` is the logic for such programs. Its `I` is what has to hold
wherever the program is cut, and `Q` is only promised of a run that comes to its end
with a value.
-/

namespace Goobers.Lib

/-- A program over calls `Call`, whose answers are errors `ε` or values of `Answer`. -/
inductive Prog (ε Call : Type) (Answer : Call → Type) (α : Type) : Type where
  | done (a : α)
  | call (c : Call) (next : Except ε (Answer c) → Prog ε Call Answer α)

section
variable {ε Call : Type} {Answer : Call → Type} {α β σ : Type}

namespace Prog

def bind (p : Prog ε Call Answer α) (f : α → Prog ε Call Answer β) : Prog ε Call Answer β :=
  match p with
  | .done a => f a
  | .call c next => .call c (fun r => (next r).bind f)

instance : Monad (Prog ε Call Answer) where
  pure := .done
  bind := .bind

end Prog

/-- A program that ends with an error or a value, as a function of the source does. -/
abbrev Attempt (ε Call : Type) (Answer : Call → Type) (α : Type) : Type :=
  ExceptT ε (Prog ε Call Answer) α

namespace Attempt

def ask (c : Call) : Attempt ε Call Answer (Answer c) :=
  ExceptT.mk (.call c .done)

/-- End with an error if something is the case. -/
def throwIf (c : Prop) [Decidable c] (e : ε) : Attempt ε Call Answer Unit :=
  if c then throw e else pure ()

/-- A result that needs no call. -/
def settle (r : Except ε α) : Attempt ε Call Answer α := ExceptT.mk (.done r)

/-- Go on with the outcome of a program, error or not. -/
def observe (p : Attempt ε Call Answer α) : Attempt ε Call Answer (Except ε α) :=
  ExceptT.mk (p.run.bind (fun r => .done (.ok r)))

def wrap (f : ε → ε) (p : Attempt ε Call Answer α) : Attempt ε Call Answer α :=
  ExceptT.mk (p.run.bind (fun r => .done (r.mapError f)))

/-- A loop that collects what each round returns. -/
def collect (f : α → Attempt ε Call Answer β) : List α → Attempt ε Call Answer (List β)
  | [] => pure []
  | a :: as => do
    let b ← f a
    let bs ← collect f as
    return b :: bs

/-- A loop for its effects. -/
def each (f : α → Attempt ε Call Answer Unit) : List α → Attempt ε Call Answer Unit
  | [] => pure ()
  | a :: as => do
    f a
    each f as

end Attempt

/-! ## Runs -/

/-- How a call may be answered, when `eff` is what it does and answers by itself. -/
inductive Answered (eff : σ → (c : Call) → Except ε (Answer c) → σ → Prop) :
    σ → (c : Call) → Except ε (Answer c) → σ → Prop where
  | answer {s c r t} : eff s c r t → Answered eff s c r t
  | failed {s c} (e : ε) : Answered eff s c (.error e) s
  | lost {s c r t} (e : ε) : eff s c r t → Answered eff s c (.error e) t

/-- A run from a state to a state, to the end (`some a`) or cut at a call (`none`). -/
inductive Runs (eff : σ → (c : Call) → Except ε (Answer c) → σ → Prop) :
    Prog ε Call Answer α → σ → σ → Option α → Prop where
  | done {a s} : Runs eff (.done a) s s (some a)
  | cutBefore {c next s} : Runs eff (.call c next) s s none
  | cutAfter {c next s r t} : Answered eff s c r t → Runs eff (.call c next) s t none
  | next {c next s r t u o} :
      Answered eff s c r t → Runs eff (next r) t u o → Runs eff (.call c next) s u o

variable {eff : σ → (c : Call) → Except ε (Answer c) → σ → Prop}

theorem Runs.done_inv {a : α} {s t : σ} {o : Option α} (h : Runs eff (.done a) s t o) :
    t = s ∧ o = some a := by
  cases h
  exact ⟨rfl, rfl⟩

theorem Runs.bind_inv {p : Prog ε Call Answer α} {f : α → Prog ε Call Answer β} {s t : σ}
    {o : Option β} (h : Runs eff (p.bind f) s t o) :
    (o = none ∧ Runs eff p s t none) ∨ ∃ a u, Runs eff p s u (some a) ∧ Runs eff (f a) u t o := by
  induction p generalizing s with
  | done a => exact .inr ⟨a, s, .done, h⟩
  | call c next ih =>
    cases h with
    | cutBefore => exact .inl ⟨rfl, .cutBefore⟩
    | cutAfter hc => exact .inl ⟨rfl, .cutAfter hc⟩
    | next hc hrest =>
      rcases ih _ hrest with ⟨ho, hp⟩ | ⟨a, u, hp, hf⟩
      · exact .inl ⟨ho, .next hc hp⟩
      · exact .inr ⟨a, u, .next hc hp, hf⟩

/-! ## The logic -/

/--
From a state with `P`, a run of the program is in a state with `I` wherever it is cut or
ends, and if it ends with a value, `Q` holds of that.
-/
def Ensures (eff : σ → (c : Call) → Except ε (Answer c) → σ → Prop) (I P : σ → Prop)
    (p : Attempt ε Call Answer α) (Q : α → σ → Prop) : Prop :=
  ∀ s t o, P s → Runs eff p.run s t o → I t ∧ ∀ a, o = some (.ok a) → Q a t

namespace Ensures
variable {I P : σ → Prop} {Q : α → σ → Prop} {p : Attempt ε Call Answer α}

theorem pure {a : α} (hI : ∀ s, P s → I s) (hQ : ∀ s, P s → Q a s) :
    Ensures eff I P (pure a) Q := by
  intro s t o hs h
  obtain ⟨rfl, rfl⟩ := h.done_inv
  refine ⟨hI _ hs, fun b hb => ?_⟩
  cases hb
  exact hQ _ hs

theorem kept {a : α} : Ensures eff I I (Pure.pure a) (fun _ => I) :=
  pure (fun _ h => h) fun _ h => h

theorem throw {e : ε} (hI : ∀ s, P s → I s) : Ensures eff I P (throw e) Q := by
  intro s t o hs h
  obtain ⟨rfl, rfl⟩ := h.done_inv
  exact ⟨hI _ hs, nofun⟩

theorem throwIf {c : Prop} [Decidable c] {e : ε} (hI : ∀ s, P s → I s) :
    Ensures eff I P (Attempt.throwIf c e) (fun _ s => P s ∧ ¬ c) := by
  unfold Attempt.throwIf
  split_ifs with hc
  · exact throw hI
  · exact pure hI (fun s hs => ⟨hs, hc⟩)

theorem settle {r : Except ε α} (hI : ∀ s, P s → I s) :
    Ensures eff I P (Attempt.settle r) (fun a s => P s ∧ r = .ok a) := by
  intro s t o hs h
  obtain ⟨rfl, rfl⟩ := h.done_inv
  exact ⟨hI _ hs, fun a ha => ⟨hs, Option.some.inj ha⟩⟩

theorem ask {c : Call} {Q : Answer c → σ → Prop} (hI : ∀ s, P s → I s)
    (h : ∀ s r t, P s → eff s c r t → I t ∧ ∀ a, r = .ok a → Q a t) :
    Ensures eff I P (Attempt.ask c) Q := by
  intro s t o hs hrun
  cases hrun with
  | cutBefore => exact ⟨hI s hs, nofun⟩
  | cutAfter hc =>
    refine ⟨?_, nofun⟩
    cases hc with
    | answer he | lost e he => exact (h _ _ _ hs he).1
    | failed e => exact hI s hs
  | next hc hrest =>
    obtain ⟨rfl, rfl⟩ := hrest.done_inv
    cases hc with
    | answer he =>
      refine ⟨(h _ _ _ hs he).1, fun a ha => ?_⟩
      exact (h _ _ _ hs he).2 a (Option.some.inj ha)
    | failed e => exact ⟨hI s hs, nofun⟩
    | lost e he => exact ⟨(h _ _ _ hs he).1, nofun⟩

theorem bind {f : α → Attempt ε Call Answer β}
    {R : β → σ → Prop} (hp : Ensures eff I P p Q) (hf : ∀ a, Ensures eff I (Q a) (f a) R) :
    Ensures eff I P (p >>= f) R := by
  intro s t o hs h
  rcases Runs.bind_inv h with ⟨rfl, hcut⟩ | ⟨r, u, hfirst, hrest⟩
  · exact ⟨(hp s t none hs hcut).1, nofun⟩
  · obtain ⟨hI, hQ⟩ := hp s u (some r) hs hfirst
    cases r with
    | error e =>
      -- the error goes past the second program
      obtain ⟨rfl, rfl⟩ := Runs.done_inv hrest
      exact ⟨hI, nofun⟩
    | ok a => exact hf a u t o (hQ a rfl) hrest

/-- What holds before a program in every state it may start from is known for good. -/
theorem assume {A : Prop} (hA : ∀ s, P s → A)
    (h : A → Ensures eff I P p Q) : Ensures eff I P p Q :=
  fun s t o hs hrun => h (hA s hs) s t o hs hrun

theorem throwIf_bind {c : Prop} [Decidable c] {e : ε} {f : Unit → Attempt ε Call Answer α}
    (hI : ∀ s, P s → I s) (h : ¬ c → Ensures eff I P (f ()) Q) :
    Ensures eff I P (Attempt.throwIf c e >>= f) Q := by
  unfold Attempt.throwIf
  split_ifs with hc
  · exact bind (Q := fun _ _ => False) (throw hI) (fun _ _ _ _ hfalse => hfalse.elim)
  · exact bind (pure (Q := fun _ => P) hI (fun _ hs => hs)) (fun _ => h hc)

theorem settle_bind {r : Except ε α} {f : α → Attempt ε Call Answer β} {R : β → σ → Prop}
    (hI : ∀ s, P s → I s) (h : ∀ a, r = .ok a → Ensures eff I P (f a) R) :
    Ensures eff I P (Attempt.settle r >>= f) R := by
  refine bind (settle hI) (fun a => ?_)
  intro s t o hs hrun
  exact h a hs.2 s t o hs.1 hrun

section
variable (h : Ensures eff I P p Q)
include h

theorem weaken {P' : σ → Prop} {Q' : α → σ → Prop} (hP : ∀ s, P' s → P s)
    (hQ : ∀ a s, Q a s → Q' a s) :
    Ensures eff I P' p Q' := by
  intro s t o hs hrun
  obtain ⟨hI, hend⟩ := h s t o (hP s hs) hrun
  exact ⟨hI, fun a ha => hQ a t (hend a ha)⟩

theorem pre {P' : σ → Prop} (hP : ∀ s, P' s → P s) :
    Ensures eff I P' p Q := h.weaken hP fun _ _ h => h

theorem post {Q' : α → σ → Prop} (hQ : ∀ a s, Q a s → Q' a s) :
    Ensures eff I P p Q' := h.weaken (fun _ h => h) hQ

theorem cut {I' : σ → Prop} (hI : ∀ s, I s → I' s) : Ensures eff I' P p Q := by
  intro s t o hs hrun
  obtain ⟨hcut, hend⟩ := h s t o hs hrun
  exact ⟨hI t hcut, hend⟩

theorem observe :
    Ensures eff I P (Attempt.observe p) (fun r s => I s ∧ ∀ a, r = .ok a → Q a s) := by
  intro s t o hs hrun
  rcases Runs.bind_inv hrun with ⟨rfl, hcut⟩ | ⟨r, u, hfirst, hrest⟩
  · exact ⟨(h s t none hs hcut).1, nofun⟩
  · obtain ⟨rfl, rfl⟩ := Runs.done_inv hrest
    obtain ⟨hI, hQ⟩ := h s t (some r) hs hfirst
    refine ⟨hI, fun r' hr' => ?_⟩
    cases hr'
    exact ⟨hI, fun a ha => hQ a (congrArg some ha)⟩

theorem wrap {f : ε → ε} :
    Ensures eff I P (Attempt.wrap f p) Q := by
  intro s t o hs hrun
  rcases Runs.bind_inv hrun with ⟨rfl, hcut⟩ | ⟨r, u, hfirst, hrest⟩
  · exact ⟨(h s t none hs hcut).1, nofun⟩
  · obtain ⟨rfl, rfl⟩ := Runs.done_inv hrest
    obtain ⟨hI, hQ⟩ := h s t (some r) hs hfirst
    refine ⟨hI, fun a ha => ?_⟩
    cases r with
    | error e => exact absurd ha nofun
    | ok b =>
      cases ha
      exact hQ a rfl

end

/-- A loop: what is known after the rounds so far, `R`, is known one round later. -/
theorem collect {f : α → Attempt ε Call Answer β} {R : List α → List β → σ → Prop} {xs : List α}
    (hI : ∀ done out s, R done out s → I s)
    (hf : ∀ done a rest out, xs = done ++ a :: rest →
      Ensures eff I (R done out) (f a) (fun b => R (done ++ [a]) (out ++ [b]))) :
    Ensures eff I (R [] []) (Attempt.collect f xs) (fun bs => R xs bs) := by
  suffices h : ∀ rest done out, xs = done ++ rest →
      Ensures eff I (R done out) (Attempt.collect f rest) (fun bs => R xs (out ++ bs)) by
    exact h xs [] [] rfl
  intro rest
  induction rest with
  | nil =>
    intro done out hxs
    rw [List.append_nil] at hxs
    subst hxs
    refine Ensures.pure (hI _ out) (fun s hs => ?_)
    rwa [List.append_nil]
  | cons a rest ih =>
    intro done out hxs
    refine (hf done a rest out hxs).bind (fun b => ?_)
    have hxs' : xs = (done ++ [a]) ++ rest := by rw [hxs, List.append_assoc, List.singleton_append]
    refine (ih (done ++ [a]) (out ++ [b]) hxs').bind (fun bs => ?_)
    refine Ensures.pure (fun s hs => hI _ _ s hs) (fun s hs => ?_)
    rwa [List.append_assoc] at hs

theorem each {f : α → Attempt ε Call Answer Unit} {R : List α → σ → Prop} {xs : List α}
    (hI : ∀ done s, R done s → I s)
    (hf : ∀ done a rest, xs = done ++ a :: rest →
      Ensures eff I (R done) (f a) (fun _ => R (done ++ [a]))) :
    Ensures eff I (R []) (Attempt.each f xs) (fun _ => R xs) := by
  suffices h : ∀ rest done, xs = done ++ rest →
      Ensures eff I (R done) (Attempt.each f rest) (fun _ => R xs) by
    exact h xs [] rfl
  intro rest
  induction rest with
  | nil =>
    intro done hxs
    rw [List.append_nil] at hxs
    subst hxs
    exact Ensures.pure (hI _) (fun s hs => hs)
  | cons a rest ih =>
    intro done hxs
    refine (hf done a rest hxs).bind (fun _ => ?_)
    exact ih (done ++ [a]) (by rw [hxs, List.append_assoc, List.singleton_append])

end Ensures

/-! ## Runs without interruption -/

/-- The run in which every call does its work and is answered. -/
def Prog.exec (ex : σ → (c : Call) → Except ε (Answer c) × σ) :
    Prog ε Call Answer α → σ → α × σ
  | .done a, s => (a, s)
  | .call c next, s => (next (ex s c).1).exec ex (ex s c).2

/-- What a program returns when nothing interrupts it, and the state it leaves. -/
def Attempt.exec (ex : σ → (c : Call) → Except ε (Answer c) × σ) (p : Attempt ε Call Answer α)
    (s : σ) : Except ε α × σ :=
  p.run.exec ex s

variable {ex : σ → (c : Call) → Except ε (Answer c) × σ}

theorem Prog.exec_bind (p : Prog ε Call Answer α) (f : α → Prog ε Call Answer β) (s : σ) :
    (p.bind f).exec ex s = (f (p.exec ex s).1).exec ex (p.exec ex s).2 := by
  induction p generalizing s with
  | done a => rfl
  | call c next ih => exact ih _ _

namespace Attempt

@[simp] theorem exec_pure (a : α) (s : σ) :
    (pure a : Attempt ε Call Answer α).exec ex s = (.ok a, s) := rfl

@[simp] theorem exec_throw (e : ε) (s : σ) :
    (throw e : Attempt ε Call Answer α).exec ex s = (.error e, s) := rfl

@[simp] theorem exec_ask (c : Call) (s : σ) :
    (ask c : Attempt ε Call Answer (Answer c)).exec ex s = ex s c := rfl

@[simp] theorem exec_settle (r : Except ε α) (s : σ) :
    (settle r : Attempt ε Call Answer α).exec ex s = (r, s) := rfl

theorem exec_throwIf {c : Prop} [Decidable c] {e : ε} (h : ¬ c) (s : σ) :
    (throwIf c e : Attempt ε Call Answer Unit).exec ex s = (.ok (), s) := by
  unfold throwIf
  rw [if_neg h]
  rfl

theorem exec_bind (p : Attempt ε Call Answer α) (f : α → Attempt ε Call Answer β) (s : σ) :
    (p >>= f).exec ex s =
      match p.exec ex s with
      | (.ok a, t) => (f a).exec ex t
      | (.error e, t) => (.error e, t) := by
  refine (Prog.exec_bind p.run (ExceptT.bindCont f) s).trans ?_
  unfold Attempt.exec
  rcases p.run.exec ex s with ⟨r, t⟩
  cases r <;> rfl

theorem exec_bind_ok {p : Attempt ε Call Answer α} {f : α → Attempt ε Call Answer β} {s t : σ}
    {a : α} (h : p.exec ex s = (.ok a, t)) : (p >>= f).exec ex s = (f a).exec ex t := by
  rw [exec_bind, h]

@[simp] theorem exec_observe (p : Attempt ε Call Answer α) (s : σ) :
    (observe p).exec ex s = (.ok (p.exec ex s).1, (p.exec ex s).2) :=
  Prog.exec_bind p.run _ s

theorem exec_wrap (f : ε → ε) (p : Attempt ε Call Answer α) (s : σ) :
    (wrap f p).exec ex s = ((p.exec ex s).1.mapError f, (p.exec ex s).2) :=
  Prog.exec_bind p.run _ s

theorem exec_wrap_ok {f : ε → ε} {p : Attempt ε Call Answer α} {s t : σ} {a : α}
    (h : p.exec ex s = (.ok a, t)) : (wrap f p).exec ex s = (.ok a, t) := by
  rw [exec_wrap, h]
  rfl

theorem exec_each {f : α → Attempt ε Call Answer Unit} {R : List α → σ → Prop} {xs : List α}
    (hf : ∀ done a rest s, xs = done ++ a :: rest → R done s →
      ∃ t, (f a).exec ex s = (.ok (), t) ∧ R (done ++ [a]) t) {s : σ} (hs : R [] s) :
    ∃ t, (each f xs).exec ex s = (.ok (), t) ∧ R xs t := by
  suffices h : ∀ rest done s, xs = done ++ rest → R done s →
      ∃ t, (each f rest).exec ex s = (.ok (), t) ∧ R xs t by
    exact h xs [] s rfl hs
  intro rest
  induction rest with
  | nil =>
    intro done s hxs hs
    rw [List.append_nil] at hxs
    exact ⟨s, rfl, hxs ▸ hs⟩
  | cons a rest ih =>
    intro done s hxs hs
    obtain ⟨t, ht, hR⟩ := hf done a rest s hxs hs
    have hxs' : xs = (done ++ [a]) ++ rest := by rw [hxs, List.append_assoc, List.singleton_append]
    obtain ⟨u, hu, hend⟩ := ih (done ++ [a]) t hxs' hR
    refine ⟨u, ?_, hend⟩
    rw [show each f (a :: rest) = (f a >>= fun _ => each f rest) from rfl, exec_bind_ok ht]
    exact hu

end Attempt

theorem Prog.runs_exec (hex : ∀ s c, eff s c (ex s c).1 (ex s c).2) (p : Prog ε Call Answer α)
    (s : σ) : Runs eff p s (p.exec ex s).2 (some (p.exec ex s).1) := by
  induction p generalizing s with
  | done a => exact .done
  | call c next ih => exact .next (.answer (hex s c)) (ih _ _)

/-- At most `n` calls of a program, after which it is cut. -/
def Prog.execFirst (ex : σ → (c : Call) → Except ε (Answer c) × σ) :
    Nat → Prog ε Call Answer α → σ → σ
  | n + 1, .call c next, s => (next (ex s c).1).execFirst ex n (ex s c).2
  | _, _, s => s

theorem Prog.runs_execFirst (hex : ∀ s c, eff s c (ex s c).1 (ex s c).2) (n : Nat)
    (p : Prog ε Call Answer α) (s : σ) : ∃ o, Runs eff p s (p.execFirst ex n s) o := by
  induction n generalizing p s with
  | zero =>
    cases p with
    | done a => exact ⟨some a, .done⟩
    | call c next => exact ⟨none, .cutBefore⟩
  | succ n ih =>
    cases p with
    | done a => exact ⟨some a, .done⟩
    | call c next =>
      obtain ⟨o, ho⟩ := ih (next (ex s c).1) (ex s c).2
      exact ⟨o, .next (.answer (hex s c)) ho⟩

theorem Ensures.exec {I P : σ → Prop} {p : Attempt ε Call Answer α} {Q : α → σ → Prop}
    (h : Ensures eff I P p Q) (hex : ∀ s c, eff s c (ex s c).1 (ex s c).2) {s t : σ} {a : α}
    (hs : P s) (hp : p.exec ex s = (.ok a, t)) : Q a t := by
  have hrun := Prog.runs_exec hex p.run s
  rw [show p.run.exec ex s = (.ok a, t) from hp] at hrun
  exact (h s t _ hs hrun).2 a rfl

/-- The calls of a program do what a function says. -/
def Does (ex : σ → (c : Call) → Except ε (Answer c) × σ) (s : σ) (c : Call)
    (r : Except ε (Answer c)) (t : σ) : Prop :=
  ex s c = (r, t)

namespace Ensures
variable {I P : σ → Prop}

theorem does {c : Call} {Q : Answer c → σ → Prop} (hI : ∀ s, P s → I s)
    (h : ∀ s, P s → I (ex s c).2 ∧ ∀ a, (ex s c).1 = .ok a → Q a (ex s c).2) :
    Ensures (Does ex) I P (Attempt.ask c) Q := by
  refine ask hI (fun s r t hs hdoes => ?_)
  have hst := h s hs
  rw [show ex s c = (r, t) from hdoes] at hst
  exact hst

theorem reads {c : Call} (hread : ∀ s, (ex s c).2 = s) (hI : ∀ s, P s → I s) :
    Ensures (Does ex) I P (Attempt.ask c) (fun a s => P s ∧ (ex s c).1 = .ok a) := by
  refine does hI (fun s hs => ?_)
  rw [hread s]
  exact ⟨hI s hs, fun a ha => ⟨hs, ha⟩⟩

end Ensures

end

end Goobers.Lib
