import Goobers.Workflow.Exit
import Goobers.Workflow.PathSimulation

/-!
# Broken handoffs that the simulation finds

The walk of the check forgets where it came from: it does not enter a state again if it arrived
there before with outputs of the same signature, and it does not report an input twice under one
key. Both are texts, put together from names. Where these texts tell different arrivals and
different inputs apart, the check reports exactly the handoffs that break on a walk that passes no
map: its walk has no case for a map, so it ends there.

So it misses a broken handoff exactly when a walk has to pass a map to get to it.
-/

namespace Goobers.Workflow

open Lib List

variable {d : Definition}

/-! ## The frames are arrivals -/

theorem map_nextFrames (f : PathSimulationFrame) :
    (nextFrames d f).map PathSimulationFrame.toArrival = f.toArrival.next d false := by
  unfold nextFrames Arrival.next
  cases d.task f.state with
  | some t => rfl
  | none =>
    cases d.gate f.state with
    | some g =>
      simp only [Gate.targets, map_filterMap, Option.map_map]
      rfl
    | none =>
      cases d.parallel f.state with
      | some p =>
        simp only [map_append, map_map]
        rfl
      | none => cases d.map f.state <;> rfl

theorem arrives_of_step {f : PathSimulationFrame}
    (h : Relation.ReflTransGen (pathSearch d).Step { state := d.start } f) :
    Arrives d false f.toArrival := by
  induction h with
  | refl => exact .refl
  | @tail e g _ hstep ih =>
    refine .tail ih ⟨Bool.eq_false_iff.mp hstep.1, ?_⟩
    rw [← map_nextFrames]
    exact mem_map_of_mem hstep.2

/-! ## Reports -/

/-- What the reports say about the inputs that have been looked at. -/
structure Reported (d : Definition) (seen : PathSimulationFrame → String → Prop)
    (r : PathReports) : Prop where
  keyed : ∀ k, k ∈ r.reported ↔ ∃ p ∈ r.problems, reportKey p.task p.input = k
  single : (r.problems.map (fun p => reportKey p.task p.input)).Nodup
  sound : ∀ p ∈ r.problems, ∃ f, seen f p.input ∧ f.state = p.task ∧
    BreaksAt d f.toArrival p.input
  complete : ∀ f i, seen f i → BreaksAt d f.toArrival i → reportKey f.state i ∈ r.reported

theorem Reported.congr {seen seen' : PathSimulationFrame → String → Prop} {r : PathReports}
    (h : Reported d seen r)
    (hsame : ∀ f i, BreaksAt d f.toArrival i → (seen f i ↔ seen' f i)) : Reported d seen' r where
  keyed := h.keyed
  single := h.single
  sound := fun p hp => by
    obtain ⟨f, hf, hstate, hbreaks⟩ := h.sound p hp
    exact ⟨f, (hsame f p.input hbreaks).mp hf, hstate, hbreaks⟩
  complete := fun f i hf hbreaks => h.complete f i ((hsame f i hbreaks).mpr hf) hbreaks

section reports

variable {seen : PathSimulationFrame → String → Prop} {r : PathReports} {f : PathSimulationFrame}
variable {t : Task}

theorem Reported.skip {input : String} (h : Reported d seen r)
    (hnot : ¬ BreaksAt d f.toArrival input) :
    Reported d (fun e j => seen e j ∨ (e = f ∧ j = input)) r :=
  h.congr fun e j hbreaks => ⟨.inl, fun hor => hor.elim (fun hs => hs) (fun heq => by
    rw [heq.1, heq.2] at hbreaks
    exact absurd hbreaks hnot)⟩

/-- One input reported: the new report says exactly what breaks it. -/
theorem reportInput_reported {input output : String} (htask : d.task f.state = some t)
    (hinput : t.inputsFrom.get? input = some output) (h : Reported d seen r) :
    Reported d (fun e j => seen e j ∨ (e = f ∧ j = input)) (reportInput d t f r input) := by
  unfold reportInput
  simp only [hinput, Option.getD_some]
  have hbreaks_iff : BreaksAt d f.toArrival input ↔ isQualifiedInputReference d output = false ∧
      ∃ live, f.live = some live ∧ output ∉ live := by
    constructor
    · rintro ⟨t', live, output', ht', hlive, hin, hqual, hnot⟩
      rw [htask] at ht'
      injection ht' with ht'
      rw [← ht', hinput] at hin
      injection hin with hin
      rw [← hin] at hqual hnot
      exact ⟨hqual, live, hlive, hnot⟩
    · rintro ⟨hqual, live, hlive, hnot⟩
      exact ⟨t, live, output, htask, hlive, hinput, hqual, hnot⟩
  split
  · rename_i hqual
    refine h.skip fun hbreaks => ?_
    rw [(hbreaks_iff.mp hbreaks).1] at hqual
    cases hqual
  · rename_i hqual
    split
    · rename_i hlive
      refine h.skip fun hbreaks => ?_
      obtain ⟨_, live, hsome, _⟩ := hbreaks_iff.mp hbreaks
      rw [hlive] at hsome
      cases hsome
    · rename_i live hlive
      split
      · rename_i hmem
        refine h.skip fun hbreaks => ?_
        obtain ⟨_, live', hsome, hnot⟩ := hbreaks_iff.mp hbreaks
        rw [hlive] at hsome
        injection hsome with hsome
        rw [← hsome] at hnot
        exact hnot hmem
      · rename_i hnot
        have hbreaks : BreaksAt d f.toArrival input :=
          hbreaks_iff.mpr ⟨by simpa using hqual, live, hlive, hnot⟩
        split
        · rename_i hseen
          refine ⟨h.keyed, h.single, fun p hp => ?_, fun e j hor hb => ?_⟩
          · obtain ⟨e, he, hrest⟩ := h.sound p hp
            exact ⟨e, .inl he, hrest⟩
          · rcases hor with hs | ⟨rfl, rfl⟩
            · exact h.complete e j hs hb
            · exact hseen
        · rename_i hnew
          refine ⟨fun k => ?_, ?_, fun p hp => ?_, fun e j hor hb => ?_⟩
          · rw [mem_cons, h.keyed k]
            constructor
            · rintro (rfl | ⟨p, hp, hkey⟩)
              · exact ⟨_, mem_append_right _ (mem_singleton.mpr rfl), rfl⟩
              · exact ⟨p, mem_append_left _ hp, hkey⟩
            · rintro ⟨p, hp, hkey⟩
              rcases mem_append.mp hp with hp | hp
              · exact .inr ⟨p, hp, hkey⟩
              · rw [mem_singleton.mp hp] at hkey
                exact .inl hkey.symm
          · -- the new key is not that of an earlier problem
            rw [map_append, nodup_append]
            refine ⟨h.single, by simp, fun a ha b hb => ?_⟩
            rw [map_singleton, mem_singleton] at hb
            obtain ⟨p, hp, hkey⟩ := mem_map.mp ha
            rw [hb]
            exact fun heq => hnew ((h.keyed _).mpr ⟨p, hp, hkey.trans heq⟩)
          · rcases mem_append.mp hp with hp | hp
            · obtain ⟨e, he, hrest⟩ := h.sound p hp
              exact ⟨e, .inl he, hrest⟩
            · rw [mem_singleton.mp hp]
              exact ⟨f, .inr ⟨rfl, rfl⟩, rfl, hbreaks⟩
          · rcases hor with hs | ⟨rfl, rfl⟩
            · exact mem_cons_of_mem _ (h.complete e j hs hb)
            · exact mem_cons_self

/-- One frame reported, input by input. -/
theorem reportFrame_reported (h : Reported d seen r) :
    Reported d (fun e j => seen e j ∨ e = f) (reportFrame d f r) := by
  unfold reportFrame
  cases htask : d.task f.state with
  | none =>
    refine h.congr fun e j hbreaks => ⟨.inl, fun hor => hor.elim (fun hs => hs) fun heq => ?_⟩
    obtain ⟨t, _, _, ht, _⟩ := hbreaks
    rw [heq, htask] at ht
    cases ht
  | some t =>
    -- over the keys that are left, with those looked at added to `seen`
    have hfold : ∀ (keys : List String) (seen : PathSimulationFrame → String → Prop)
        (r : PathReports), Reported d seen r →
        (∀ k ∈ keys, ∃ output, t.inputsFrom.get? k = some output) →
        Reported d (fun e j => seen e j ∨ (e = f ∧ j ∈ keys))
          (keys.foldl (reportInput d t f) r) := by
      intro keys
      induction keys with
      | nil => exact fun seen r h _ => h.congr fun e j _ => by simp
      | cons k keys ih =>
        intro seen r h hkeys
        obtain ⟨output, hk⟩ := hkeys k mem_cons_self
        refine (ih _ _ (reportInput_reported htask hk h)
          (fun k hk => hkeys k (mem_cons_of_mem _ hk))).congr fun e j _ => ?_
        simp only [mem_cons]
        tauto
    have hkeys : ∀ k, k ∈ sortedKeys t.inputsFrom ↔ ∃ o, t.inputsFrom.get? k = some o := by
      intro k
      unfold sortedKeys
      rw [mem_sortStrings, mem_map]
      constructor
      · intro ⟨row, hrow, hk⟩
        exact ⟨row.2, by rw [← hk]; exact GoMap.mem_rows.mp hrow⟩
      · intro ⟨o, ho⟩
        exact ⟨(k, o), GoMap.mem_rows.mpr ho, rfl⟩
    refine (hfold _ seen r h fun k hk => (hkeys k).mp hk).congr fun e j hbreaks => ?_
    refine or_congr_right ⟨fun hf => hf.1, fun heq => ⟨heq, ?_⟩⟩
    obtain ⟨t', _, o, ht', _, ho, _⟩ := hbreaks
    rw [heq, htask] at ht'
    injection ht' with ht'
    rw [← ht'] at ho
    exact (hkeys j).mpr ⟨o, ho⟩

theorem foldl_reportFrame_reported (expanded : List PathSimulationFrame) :
    Reported d (fun e _ => e ∈ expanded)
      (expanded.foldl (fun r f => reportFrame d f r) {}) := by
  induction expanded using reverseRecOn with
  | nil => exact ⟨fun k => by simp, nodup_nil, nofun, fun f i hf => absurd hf not_mem_nil⟩
  | append_singleton expanded f ih =>
    rw [foldl_append]
    exact (reportFrame_reported ih).congr fun e j _ => by simp

end reports

/-! ## What is found -/

/-- The text that the walk remembers of an arrival tells apart all that it can arrive at and that
does not end it; of an end it remembers nothing. -/
def SeparatesVisits (d : Definition) : Prop :=
  ∀ a b, Arrives d false a → Arrives d false b → isTerminal a.state = false →
    isTerminal b.state = false → a.visitKey = b.visitKey → a = b

/-- The text that it remembers of a report tells apart the handoffs that break. -/
def SeparatesReports (d : Definition) : Prop :=
  ∀ task input task' input', Breaks d true task input → Breaks d true task' input' →
    reportKey task input = reportKey task' input' → task = task' ∧ input = input'

theorem next_mono {a b : Arrival} (h : b ∈ a.next d false) : b ∈ a.next d true := by
  unfold Arrival.next at h ⊢
  cases ht : d.task a.state with
  | some t => simpa only [ht] using h
  | none =>
    cases hg : d.gate a.state with
    | some g => simpa only [ht, hg] using h
    | none =>
      cases hp : d.parallel a.state with
      | some p => simpa only [ht, hg, hp] using h
      | none => cases hm : d.map a.state <;> simp [ht, hg, hp, hm] at h

theorem Arrives.mono {a : Arrival} (h : Arrives d false a) : Arrives d true a := by
  induction h with
  | refl => exact .refl
  | tail _ hgoes ih => exact .tail ih ⟨hgoes.1, next_mono hgoes.2⟩

theorem text_mem_checkPathSimulation {p : HandoffProblem} (hok : structuralProblems d = [])
    (hp : p ∈ (pathSimulation d).out.problems) : p.text ∈ checkPathSimulation d := by
  unfold checkPathSimulation pathSimulationProblems
  rw [if_neg (not_not.mpr hok)]
  exact mem_append_left _ (mem_sortStrings.mpr (mem_map_of_mem hp))

/-- What the walk reports, if its keys tell the arrivals apart: a problem under the key of every
handoff that breaks around the maps, one for a key, and none for another handoff. -/
theorem pathSimulation_reports (hsep : SeparatesVisits d)
    (hbound : (pathSimulation d).bounded = false) :
    (∀ task input, Breaks d false task input → ∃ p ∈ (pathSimulation d).out.problems,
      reportKey p.task p.input = reportKey task input) ∧
    ((pathSimulation d).out.problems.map (fun p => reportKey p.task p.input)).Nodup ∧
    ∀ p ∈ (pathSimulation d).out.problems, Breaks d false p.task p.input := by
  obtain ⟨expanded, hlog⟩ := (pathSearch d).run_log { state := d.start } {}
  have hreported : Reported d (fun e _ => e ∈ expanded) (pathSimulation d).out := by
    have hout : (pathSimulation d).out = expanded.foldl (fun r f => reportFrame d f r) {} :=
      hlog.out
    rw [hout]
    exact foldl_reportFrame_reported expanded
  refine ⟨fun task input hb => ?_, hreported.single, fun p hp => ?_⟩
  · obtain ⟨a, ha, hterm, hstate, hat⟩ := hb
    -- the arrival is that of an expanded frame
    have hcover := hlog.covers hbound PathSimulationFrame.toArrival
      (fun a b => b ∈ a.next d false) (fun a => isTerminal a.state = true) (fun f => Iff.rfl)
      (fun e b _ hgo => by
        rw [← map_nextFrames] at hgo
        exact mem_map.mp hgo)
      (fun f g hf hg => hsep _ _ (arrives_of_step hf) (arrives_of_step hg)) ha
    rcases hcover with hend | ⟨f, hf, hfa⟩
    · rw [hterm] at hend
      cases hend
    · have hkey := hreported.complete f input hf (by rw [hfa]; exact hat)
      have hfstate : f.state = task := by rw [← hstate, ← hfa]
      rw [hfstate] at hkey
      exact (hreported.keyed _).mp hkey
  · obtain ⟨f, hf, hstate, hb⟩ := hreported.sound p hp
    obtain ⟨root, hroot, hreach⟩ := hlog.reached f hf
    rw [mem_singleton.mp hroot] at hreach
    exact ⟨f.toArrival, arrives_of_step hreach, hlog.entered f hf, hstate, hb⟩

def MissesNoHandoff (d : Definition) : Prop :=
  structuralProblems d = [] → (pathSimulation d).bounded = false →
    ∀ task input, Breaks d true task input → ReportsHandoff d task input

/-- Where the walk's keys tell its arrivals apart, the check misses no handoff exactly if what
breaks behind a map breaks on a walk around the maps, too, and no two handoffs that break share a
report's key. -/
theorem misses_no_handoff_iff (d : Definition) (hsep : SeparatesVisits d) :
    MissesNoHandoff d ↔
      (structuralProblems d = [] → (pathSimulation d).bounded = false →
        (∀ task input, Breaks d true task input → Breaks d false task input) ∧
        SeparatesReports d) := by
  constructor
  · intro h hok hbound
    obtain ⟨_, hsingle, hsound⟩ := pathSimulation_reports hsep hbound
    refine ⟨fun task input hb => ?_, fun task input task' input' hb hb' hkey => ?_⟩
    · obtain ⟨p, rfl, rfl, hp, _⟩ := h hok hbound task input hb
      exact hsound p hp
    · -- both are reported, under one key
      obtain ⟨p, rfl, rfl, hp, _⟩ := h hok hbound task input hb
      obtain ⟨p', rfl, rfl, hp', _⟩ := h hok hbound task' input' hb'
      have heq : p = p' := inj_on_of_nodup_map hsingle hp hp' hkey
      rw [heq]
      exact ⟨rfl, rfl⟩
  · intro h hok hbound task input hb
    obtain ⟨haround, hreports⟩ := h hok hbound
    obtain ⟨hcomplete, _, hsound⟩ := pathSimulation_reports hsep hbound
    obtain ⟨p, hp, hkey⟩ := hcomplete task input (haround task input hb)
    obtain ⟨a, ha, hrest⟩ := hsound p hp
    obtain ⟨ht, hi⟩ := hreports _ _ _ _ ⟨a, ha.mono, hrest⟩ hb hkey
    exact ⟨p, ht, hi, hp, text_mem_checkPathSimulation hok hp⟩

/-! ## Names that keep the arrivals apart -/

/-- No target has a NUL, and no output is empty, a question mark or has a comma. -/
structure PlainNames (d : Definition) : Prop where
  start : '\x00' ∉ d.start.toList
  nexts : ∀ t ∈ d.tasks, '\x00' ∉ t.next.toList
  branches : ∀ g ∈ d.gates, ∀ target ∈ g.targets, '\x00' ∉ target.toList
  routes : ∀ p ∈ d.parallels, ∀ target ∈ p.targets, '\x00' ∉ target.toList
  mapRoutes : ∀ f ∈ d.maps, ∀ target ∈ f.targets, '\x00' ∉ target.toList
  outputs : ∀ t ∈ d.tasks, ∀ o ∈ t.expectedOutputs, o ≠ "" ∧ o ≠ "?" ∧ ',' ∉ o.toList

theorem append_cons_inj {x : Char} {a a' b b' : List Char} (ha : x ∉ a) (ha' : x ∉ a')
    (h : a ++ x :: b = a' ++ x :: b') : a = a' ∧ b = b' := by
  have hlen : a.length = a'.length := by
    have hidx := congrArg (idxOf x) h
    rwa [idxOf_append_of_notMem ha, idxOf_append_of_notMem ha', idxOf_cons_self,
      idxOf_cons_self] at hidx
  obtain ⟨haa, hb⟩ := append_inj h hlen
  exact ⟨haa, (cons.inj hb).2⟩

theorem splitOn_intercalate_comma {ks : List String} (hk : ∀ o ∈ ks, o ≠ "" ∧ ',' ∉ o.toList) :
    ((",".intercalate ks).toList.splitOn ',').filter (· ≠ []) = ks.map String.toList := by
  rw [String.toList_intercalate]
  by_cases hne : ks = []
  · rw [hne]
    decide
  · have hparts : ∀ l ∈ ks.map String.toList, l ≠ [] ∧ ',' ∉ l := by
      intro l hl
      obtain ⟨o, ho, rfl⟩ := mem_map.mp hl
      exact ⟨fun hnil => (hk o ho).1 (String.toList_eq_nil_iff.mp hnil), (hk o ho).2⟩
    rw [show ",".toList = [','] from rfl,
      splitOn_intercalate ',' (fun l hl => (hparts l hl).2) (by simpa using hne)]
    exact filter_eq_self.mpr fun l hl => decide_eq_true (hparts l hl).1

theorem intercalate_inj {ks ks' : List String} (hk : ∀ o ∈ ks, o ≠ "" ∧ ',' ∉ o.toList)
    (hk' : ∀ o ∈ ks', o ≠ "" ∧ ',' ∉ o.toList)
    (h : ",".intercalate ks = ",".intercalate ks') : ks = ks' := by
  have hmaps := splitOn_intercalate_comma hk
  rw [h, splitOn_intercalate_comma hk'] at hmaps
  exact map_injective_iff.mpr (fun a b hab => String.toList_inj.mp hab) hmaps.symm

def PlainOutputs (live : Option (List String)) : Prop :=
  ∀ keys ∈ live, ∀ o ∈ keys, o ≠ "" ∧ o ≠ "?" ∧ ',' ∉ o.toList

/-- The signature tells live outputs apart as long as no name has a NUL. -/
theorem liveOutputsSignature_inj {live live' : Option (List String)} (h : PlainOutputs live)
    (h' : PlainOutputs live') (heq : liveOutputsSignature live = liveOutputsSignature live') :
    live = live' := by
  -- unknown outputs read like the one output "?"
  have hquestion : ∀ o ∈ ["?"], o ≠ "" ∧ ',' ∉ o.toList := by decide
  have hcommas : ∀ {keys}, PlainOutputs (some keys) → ∀ o ∈ keys, o ≠ "" ∧ ',' ∉ o.toList :=
    fun hkeys o ho => ⟨(hkeys _ rfl o ho).1, (hkeys _ rfl o ho).2.2⟩
  cases live with
  | none =>
    cases live' with
    | none => rfl
    | some keys' =>
      have hkeys : ["?"] = keys' := intercalate_inj hquestion (hcommas h') heq
      exact absurd rfl (h' _ rfl "?" (by rw [← hkeys]; simp)).2.1
  | some keys =>
    cases live' with
    | none =>
      have hkeys : keys = ["?"] := intercalate_inj (hcommas h) hquestion heq
      exact absurd rfl (h _ rfl "?" (by rw [hkeys]; simp)).2.1
    | some keys' => rw [intercalate_inj (hcommas h) (hcommas h') heq]

theorem plainOutputs_produced (h : PlainNames d) {t : Task} (ht : t ∈ d.tasks) :
    PlainOutputs (taskProducedOutputs t) := by
  intro keys hkeys o ho
  unfold taskProducedOutputs at hkeys
  split at hkeys
  · cases hkeys
  · split at hkeys
    · injection hkeys with hkeys
      rw [← hkeys] at ho
      cases ho
    · injection hkeys with hkeys
      rw [← hkeys, mem_sortStrings, mem_dedup] at ho
      exact h.outputs t ht o ho

theorem next_plain (h : PlainNames d) {throughMaps : Bool} {a b : Arrival}
    (hlive : PlainOutputs a.live) (hb : b ∈ a.next d throughMaps) :
    '\x00' ∉ b.state.toList ∧ PlainOutputs b.live := by
  have hnone : PlainOutputs none := fun _ hkeys => by cases hkeys
  unfold Arrival.next at hb
  split at hb
  · rename_i t ht
    rw [mem_singleton.mp hb]
    have hmem := (mem_of_task ht).1
    exact ⟨h.nexts t hmem, plainOutputs_produced h hmem⟩
  · split at hb
    · rename_i g hg
      obtain ⟨target, htarget, rfl⟩ := mem_map.mp hb
      exact ⟨h.branches g (mem_of_gate hg).1 target htarget, hlive⟩
    · split at hb
      · rename_i p hp
        have hroutes := h.routes p (mem_of_parallel hp)
        unfold Parallel.targets at hroutes
        -- a branch start, the join or the failure target
        rcases mem_append.mp hb with hb | hb
        · rcases mem_append.mp hb with hb | hb
          · obtain ⟨branch, hbranch, rfl⟩ := mem_map.mp hb
            exact ⟨hroutes _ (by simp [mem_map_of_mem hbranch]), hlive⟩
          · rw [mem_singleton.mp hb]
            exact ⟨hroutes _ (by simp), hnone⟩
        · obtain ⟨target, htarget, rfl⟩ := mem_map.mp hb
          exact ⟨hroutes _ (by simp [htarget]), hnone⟩
      · split at hb
        · rename_i f hf
          have hroutes := h.mapRoutes f (mem_of_map hf)
          unfold Map.targets at hroutes
          split at hb
          · rcases mem_cons.mp hb with rfl | hb
            · exact ⟨hroutes _ (by simp), hnone⟩
            · obtain ⟨target, htarget, rfl⟩ := mem_map.mp hb
              exact ⟨hroutes _ (by simp [htarget]), hnone⟩
          · cases hb
        · cases hb

theorem arrives_plain (h : PlainNames d) {throughMaps : Bool} {a : Arrival}
    (ha : Arrives d throughMaps a) : '\x00' ∉ a.state.toList ∧ PlainOutputs a.live := by
  induction ha with
  | refl => exact ⟨h.start, fun _ hkeys => by cases hkeys⟩
  | tail _ hgoes ih => exact next_plain h ih.2 hgoes.2

theorem append_nul_inj {s s' t t' : String} (h : '\x00' ∉ s.toList) (h' : '\x00' ∉ s'.toList)
    (heq : s ++ "\x00" ++ t = s' ++ "\x00" ++ t') : s = s' ∧ t = t' := by
  have hnul : "\x00".toList = ['\x00'] := by decide
  have hchars : s.toList ++ '\x00' :: t.toList = s'.toList ++ '\x00' :: t'.toList := by
    simpa [hnul] using congrArg String.toList heq
  obtain ⟨hs, ht⟩ := append_cons_inj h h' hchars
  exact ⟨String.toList_inj.mp hs, String.toList_inj.mp ht⟩

theorem separatesVisits_of_plain (h : PlainNames d) : SeparatesVisits d := by
  intro a b ha hb _ _ hkey
  obtain ⟨hstate, hsig⟩ := append_nul_inj (arrives_plain h ha).1 (arrives_plain h hb).1 hkey
  have hlive := liveOutputsSignature_inj (arrives_plain h ha).2 (arrives_plain h hb).2 hsig
  cases a
  cases b
  rw [Arrival.mk.injEq]
  exact ⟨hstate, hlive⟩

theorem separatesReports_of_plain (h : PlainNames d) : SeparatesReports d := by
  intro task input task' input' hb hb' hkey
  obtain ⟨a, ha, _, rfl, _⟩ := hb
  obtain ⟨a', ha', _, rfl, _⟩ := hb'
  exact append_nul_inj (arrives_plain h ha).1 (arrives_plain h ha').1 hkey

/-! ## Two workflows -/

/-- A build is redone until its review passes. It reads a memo that neither the plan nor an earlier
build produces. -/
def memoRelay : Definition :=
  { name := "relay", start := "plan"
    tasks :=
      [{ name := "plan", type := .agentic, next := "build", expectedOutputs := ["spec", "scope"] },
       { name := "build", type := .agentic, next := "review", expectedOutputs := ["change"]
         inputsFrom := GoMap.put ∅ "notes" "memo" }]
    gates := [{ name := "review", branches := GoMap.put (GoMap.put ∅ "pass" "") "redo" "build" }] }

theorem memoRelay_plain : PlainNames memoRelay where
  start := by decide
  nexts := by decide
  branches := by decide
  routes := by decide
  mapRoutes := by decide
  outputs := by decide

theorem breaks_of_no_maps (hmaps : d.maps = []) {task input : String}
    (h : Breaks d true task input) : Breaks d false task input := by
  have hnext : ∀ a : Arrival, a.next d true = a.next d false := by
    intro a
    have hnone : d.map a.state = none := by simp [Definition.map, hmaps]
    unfold Arrival.next
    rw [hnone]
  have hgoes : WalksTo d true = WalksTo d false := by
    funext a b
    unfold WalksTo
    rw [hnext]
  obtain ⟨a, ha, hrest⟩ := h
  unfold Arrives at ha
  rw [hgoes] at ha
  exact ⟨a, ha, hrest⟩

theorem memoRelay_misses_nothing : MissesNoHandoff memoRelay ∧
    (pathSimulation memoRelay).out.problems.map (fun p => (p.task, p.input)) =
      [("build", "notes")] :=
  ⟨(misses_no_handoff_iff memoRelay (separatesVisits_of_plain memoRelay_plain)).mpr fun _ _ =>
    ⟨fun _ _ h => breaks_of_no_maps rfl h, separatesReports_of_plain memoRelay_plain⟩,
    by decide⟩

/-- The shards are mapped and collected. The publication after it reads a digest, and the
collection produces a report only. -/
def shardRun : Definition :=
  { name := "shards", start := "each"
    tasks :=
      [{ name := "shard", type := .agentic, next := "@join", expectedOutputs := ["part"] },
       { name := "collect", type := .agentic, next := "publish", expectedOutputs := ["report"] },
       { name := "publish", type := .agentic, next := ""
         inputsFrom := GoMap.put ∅ "summary" "digest" }]
    maps := [{ name := "each", task := "shard", join := "collect" }] }

/-- The walk ends at the map, so the check has nothing to report; the run comes to the publication
with a collected report and no digest. -/
theorem shardRun_missed : structuralProblems shardRun = [] ∧
    (pathSimulation shardRun).bounded = false ∧ checkPathSimulation shardRun = [] ∧
    Breaks shardRun true "publish" "summary" ∧ ¬ MissesNoHandoff shardRun := by
  have hok : structuralProblems shardRun = [] := by decide
  have hbound : (pathSimulation shardRun).bounded = false := by decide
  have hcheck : checkPathSimulation shardRun = [] := by decide
  have hbreaks : Breaks shardRun true "publish" "summary" := by
    have hcollect : Arrives shardRun true ⟨"collect", none⟩ :=
      .tail .refl ⟨by decide, by decide⟩
    have hpublish : Arrives shardRun true ⟨"publish", some ["report"]⟩ :=
      .tail hcollect ⟨by decide, by decide⟩
    refine ⟨_, hpublish, by decide, rfl, ?_⟩
    exact ⟨_, _, "digest", rfl, rfl, by decide, by decide, by decide⟩
  refine ⟨hok, hbound, hcheck, hbreaks, fun h => ?_⟩
  obtain ⟨p, _, _, _, htext⟩ := h hok hbound _ _ hbreaks
  cases htext

end Goobers.Workflow
