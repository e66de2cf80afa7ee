import Mathlib.Data.List.Induction
import Stencil.Proofs.Tuning.Independence

/-!
This module contains the choice of the tuner, which is the first one of the fastest trials.
-/

namespace Stencil.Tuning

variable {τ : Type}

/-- Times of which each two can be compared, up to ties. -/
structure Elapsed.Comparable [Elapsed τ] (ts : List τ) : Prop where
  asymm : ∀ a ∈ ts, ∀ b ∈ ts, less a b = true → less b a = false
  split : ∀ a ∈ ts, ∀ b ∈ ts, ∀ c ∈ ts, less a c = true → less a b = true ∨ less b c = true

theorem Elapsed.Comparable.subset [Elapsed τ] {ts ts' : List τ} (h : Comparable ts)
    (hsubset : ts' ⊆ ts) : Comparable ts' where
  asymm a ha b hb := h.asymm a (hsubset ha) b (hsubset hb)
  split a ha b hb c hc := h.split a (hsubset ha) b (hsubset hb) c (hsubset hc)

theorem Elapsed.Comparable.trans [Elapsed τ] {ts : List τ} (h : Comparable ts) {a b c : τ}
    (ha : a ∈ ts) (hb : b ∈ ts) (hc : c ∈ ts) (hab : less a b = true) (hbc : less b c = true) :
    less a c = true := by
  rcases h.split a ha c hc b hb hab with hac | hcb
  · exact hac
  · rw [h.asymm b hb c hc hbc] at hcb
    cases hcb

namespace Results

variable [Elapsed τ]

/-- Of the trials with a time, no earlier one is as fast and no later one is faster. -/
def IsFastest (r : Results τ) (best : Trial τ) (e : τ) : Prop :=
  ∃ before after, r.trials = before ++ best :: after ∧ best.elapsed? = some e ∧
    (∀ t ∈ before, ∀ e', t.elapsed? = some e' → Elapsed.less e e' = true) ∧
    ∀ t ∈ after, ∀ e', t.elapsed? = some e' → Elapsed.less e' e = false

theorem foldl_faster (t : Trial τ × τ) (ts : List (Trial τ × τ))
    (h : Elapsed.Comparable ((t :: ts).map (·.2))) :
    ∃ before after, t :: ts = before ++ ts.foldl faster t :: after ∧
      (∀ u ∈ before, Elapsed.less (ts.foldl faster t).2 u.2 = true) ∧
      ∀ u ∈ after, Elapsed.less u.2 (ts.foldl faster t).2 = false := by
  induction ts using List.reverseRecOn with
  | nil => exact ⟨[], [], rfl, by simp, by simp⟩
  | append_singleton ts u ih =>
    have hsubset : (t :: ts).map (·.2) ⊆ (t :: (ts ++ [u])).map (·.2) :=
      List.map_subset _ (List.subset_append_left (t :: ts) [u])
    have hmem {v : Trial τ × τ} (hv : v ∈ t :: ts) : v.2 ∈ (t :: (ts ++ [u])).map (·.2) :=
      hsubset (List.mem_map_of_mem hv)
    have hu : u.2 ∈ (t :: (ts ++ [u])).map (·.2) := List.mem_map_of_mem (by simp)
    obtain ⟨before, after, hsplit, hbefore, hafter⟩ := ih (h.subset hsubset)
    have hbest := mem_of_foldl_faster t ts
    rw [List.foldl_append, List.foldl_cons, List.foldl_nil, faster]
    split
    · next hless =>
      refine ⟨t :: ts, [], rfl, ?_, by simp⟩
      intro v hv
      have hv' := hv
      rw [hsplit, List.mem_append, List.mem_cons] at hv
      rcases hv with hv | rfl | hv
      · exact h.trans hu (hmem hbest) (hmem hv') hless (hbefore v hv)
      · exact hless
      · rcases h.split u.2 hu v.2 (hmem hv') _ (hmem hbest) hless with hlt | hlt
        · exact hlt
        · rw [hafter v hv] at hlt
          cases hlt
    · next hless =>
      refine ⟨before, after ++ [u], ?_, hbefore, ?_⟩
      · rw [← List.cons_append, hsplit, List.append_assoc]
        rfl
      · intro v hv
        rcases List.mem_append.1 hv with hv | hv
        · exact hafter v hv
        · rw [List.mem_singleton.1 hv]
          exact Bool.eq_false_of_not_eq_true hless

theorem isFastest_of_best? {r : Results τ} (h : Elapsed.Comparable (r.timed.map (·.2)))
    {best : Trial τ} (hbest : r.best? = some best) : ∃ e, r.IsFastest best e := by
  unfold best? at hbest
  split at hbest
  · cases hbest
  · next t ts htimed =>
    rw [htimed] at h
    obtain ⟨before, after, hsplit, hbefore, hafter⟩ := foldl_faster t ts h
    rw [← htimed, timed, List.filterMap_eq_append_iff] at hsplit
    obtain ⟨first, rest, htrials, rfl, hrest⟩ := hsplit
    obtain ⟨untimed, u, last, rfl, huntimed, hu, rfl⟩ := List.filterMap_eq_cons_iff.1 hrest
    obtain ⟨e, he, heq⟩ := Option.map_eq_some_iff.1 hu
    rw [← heq] at hbest hbefore hafter
    obtain rfl := Option.some.inj hbest
    refine ⟨e, first ++ untimed, last, ?_, he, ?_, ?_⟩
    · rw [htrials, List.append_assoc]
    · intro v hv e' he'
      rcases List.mem_append.1 hv with hv | hv
      · apply hbefore (v, e')
        exact List.mem_filterMap.2 ⟨v, hv, by rw [he']; rfl⟩
      · have hnone := huntimed v hv
        rw [he'] at hnone
        cases hnone
    · intro v hv e' he'
      apply hafter (v, e')
      exact List.mem_filterMap.2 ⟨v, hv, by rw [he']; rfl⟩

end Results

/--
The tuner chooses the fastest shape that may be run. There is one record for each candidate, in
order, and each trial starts from the store that the one before leaves. Whether a candidate is run
and with which arguments follows from its sizes and from the arguments before the first trial. So
does its verdict, if runs ignore what others have written: the record is the one that the candidate
would have got as the first one. The arguments that come out have the sizes of the first one of the
fastest candidates, unless no run succeeds.
-/
theorem tune_chooses_fastest [Elapsed τ] (op : Operator τ) (o : Options) (ps : List Parameter)
    (args : Arguments) (store : Store τ) (short : Arguments) (steps : Int) (limits : List Int)
    (hreaches : Reaches op o ps args store short steps limits)
    (hsetup : ∀ s, ∃ i, (op.setup s).1 = .profiler i) (hapart : ProfilerApart op ps short)
    (hcomparable : Elapsed.Comparable
      ((tune op o ps args store).value.results.timed.map (·.2))) :
    (tune op o ps args store).value.results.trials.map (·.shape) =
      (BlockShape.candidates ps limits o).value ∧
    (∃ s, JudgedInTurn op o limits short (args.copyOutputs op.outputs store).2
      (tune op o ps args store).value.results.trials s) ∧
    (op.Framed → op.IgnoresOutputs → args.InStore store → (tune op o ps args store).fits = true →
      ∀ t ∈ (tune op o ps args store).value.results.trials, ∃ s,
        Judged op o limits short (args.copyOutputs op.outputs store).2 t s) ∧
    (∀ shape, refusal? op o limits short shape = none ↔
      (∀ e ∈ shape.sizes.zip limits, e.1.2 ≤ e.2) ∧
      ∃ bytes, (stackFootprint op.functions (shape.bind short)).value = some bytes ∧
        bytes ≤ o.stackLimit) ∧
    List.Forall₂ (IsRunOf op short)
      ((BlockShape.candidates ps limits o).value.filter fun shape =>
        (refusal? op o limits short shape).isNone)
      (tune op o ps args store).value.runs ∧
    ((tune op o ps args store).value.arguments = args ∧
        (∀ t ∈ (tune op o ps args store).value.results.trials, t.elapsed? = none) ∨
      ∃ best e profiler, (tune op o ps args store).value.results.IsFastest best e ∧
        (tune op o ps args store).value.arguments =
          (best.shape.bind args).insert op.profilerName profiler) := by
  have hindependent := hreaches.independent hapart
  rw [value_tune hreaches] at hcomparable ⊢
  have htried := hreaches.tried hsetup hapart
  have hshapes : (Bench.attemptAll op o limits (.start op args store short steps)
      (BlockShape.candidates ps limits o).value).value.results.trials.map (·.shape) =
        (BlockShape.candidates ps limits o).value := Bench.shapes_attemptAll _
  generalize (Bench.attemptAll op o limits (.start op args store short steps)
    (BlockShape.candidates ps limits o).value).value = b at *
  rw [b.results_choose] at hcomparable ⊢
  rw [b.runs_choose]
  refine ⟨hshapes, ⟨_, htried.judged⟩, ?_, fun shape => refusal?_eq_none_iff, htried.runs, ?_⟩
  · intro hop hignores hargs hfits
    exact (hindependent hop hignores hargs hfits).judged
  rcases b.choose_cases op args with ⟨hsame, hnone⟩ | ⟨best, hbest, hchosen⟩
  · exact .inl ⟨hsame, Results.best?_eq_none_iff.1 hnone⟩
  · obtain ⟨e, hfastest⟩ := Results.isFastest_of_best? hcomparable hbest
    exact .inr ⟨best, e, _, hfastest, hchosen⟩

section Meter

abbrev Ticks := Nat

instance : Elapsed Ticks where
  zero := 0
  none := 0
  add a b := a + b
  less a b := decide (a < b)
  inOrder a b := decide (a ≤ b)
  text := toString

theorem comparable_ticks (ts : List Ticks) : Elapsed.Comparable ts where
  asymm a _ b _ h := by
    have hlt : a < b := of_decide_eq_true h
    exact decide_eq_false (Nat.lt_asymm hlt)
  split a _ b _ c _ h := by
    have hlt : a < c := of_decide_eq_true h
    rcases Nat.lt_or_ge a b with hab | hba
    · exact .inl (decide_eq_true hab)
    · exact .inr (decide_eq_true (Nat.lt_of_le_of_lt hba hlt))

def append (args : Arguments) (s : Store Ticks) : Store Ticks :=
  match args.find? "u" with
  | some (.buffer i) => s.modifyBuffer i (· ++ [0.0])
  | _ => s

/-- A run is the faster the closer its blocks are to six iterations. -/
def ticks (args : Arguments) : Ticks := (((args.int? "bx").getD 0) - 6).natAbs + 1

def clock (args : Arguments) (s : Store Ticks) : Store Ticks :=
  match args.find? "timers" with
  | some (.profiler i) => s.modifyProfile i (·.record "sweep" (ticks args))
  | _ => s

def meter (extent : Expr) : Operator Ticks where
  loops := [⟨.space "x", 0, (0, 0), false⟩]
  outputs := ["u"]
  functions := [.declare "r" (.array true) [.space "x"] [extent]]
  run args s := pure (.ok (), clock args (append args s))

theorem keeps_meter (extent : Expr) (args : Arguments) (s : Store Ticks) :
    s.Keeps ((meter extent).run args s).value.2 ((meter extent).Touches args) := by
  have happend : s.Keeps (append args s) ((meter extent).Touches args) := by
    unfold append
    split
    · next i hi =>
      apply (Store.Keeps.refl s _).trans (s.keeps_modifyBuffer i _)
      rintro _ _ rfl
      exact ⟨"u", List.mem_singleton_self "u", hi⟩
    · exact .refl s _
  show s.Keeps (clock args (append args s)) _
  unfold clock
  split
  · next i hi =>
    apply happend.trans ((append args s).keeps_modifyProfile i _)
    rintro _ _ rfl
    exact hi
  · exact happend

theorem framed_meter (extent : Expr) : (meter extent).Framed :=
  Operator.framed_of_setup rfl (keeps_meter extent)

theorem profilers_append (args : Arguments) (s : Store Ticks) :
    (append args s).profilers = s.profilers := by
  unfold append
  split <;> rfl

theorem elapsed?_clock {args : Arguments} {s : Store Ticks} {i : Nat}
    (hprofiler : args.find? "timers" = some (.profiler i)) (hi : i < s.profilers.length) :
    args.elapsed? (clock args (append args s)) "timers" =
      some (Profile.total (Profile.record (s.profile i) "sweep" (ticks args))) := by
  have hi' : i < (append args s).profilers.length := by
    rw [profilers_append]
    exact hi
  unfold clock Arguments.elapsed?
  rw [hprofiler]
  dsimp only
  rw [Store.profile_modifyProfile hi']
  unfold Store.profile
  rw [profilers_append]

theorem elapsed?_launch_meter (extent : Expr) (args : Arguments) (s : Store Ticks) :
    ((meter extent).launch args s).value.arguments.elapsed?
        ((meter extent).launch args s).value.store "timers" =
      some (Profile.total (Profile.record .empty "sweep" (ticks
        (args.insert "timers" (.profiler s.profilers.length))))) := by
  have hprofiler : (args.insert "timers" (.profiler s.profilers.length)).find? "timers" =
      some (.profiler s.profilers.length) := by
    rw [OrdMap.find?_insert, if_pos rfl]
  have helapsed := elapsed?_clock hprofiler (s.keeps_addProfile .empty fun _ => False).2
  rw [s.profile_addProfile] at helapsed
  exact helapsed

theorem ignoresOutputs_meter (extent : Expr) : (meter extent).IgnoresOutputs := by
  intro args s s' _ _
  have hticks : ticks (args.insert "timers" (.profiler s'.profilers.length)) =
      ticks (args.insert "timers" (.profiler s.profilers.length)) := by
    unfold ticks
    rw [int?_insert_profiler args "timers" s'.profilers.length s.profilers.length "bx"]
  rw [verdict_launch_of_ok rfl, verdict_launch_of_ok rfl]
  show Verdict.timed ((Arguments.elapsed? _ _ "timers").getD _) =
    Verdict.timed ((Arguments.elapsed? _ _ "timers").getD _)
  rw [elapsed?_launch_meter, elapsed?_launch_meter, hticks]

def meterParameter : Parameter := ⟨"bx", .space "x", ⟨.space "x", 0, (0, 0), false⟩⟩

def meterOptions : Options := ⟨5, [2, 4, 8, 32], 40, .basic⟩

def meterArguments : Arguments := .ofList [("u", .buffer 0), ("x_size", .int 16)]

def meterShort : Arguments := .ofList [("u", .buffer 1), ("x_size", .int 16)]

def meterStore : Store Ticks := ⟨[[]], []⟩

def metered : Checked (Tuned Ticks) :=
  tune (meter (.sym "bx")) meterOptions [meterParameter] meterArguments meterStore

/-- Two shapes are fastest, one does not fit onto the stack, and one is larger than the loop. -/
theorem tune_chooses_fastest_meter :
    Reaches (meter (.sym "bx")) meterOptions [meterParameter] meterArguments meterStore meterShort
      1 [16] ∧
    metered.value.results.trials.map (·.shape) =
      [⟨[("bx", 2)]⟩, ⟨[("bx", 4)]⟩, ⟨[("bx", 8)]⟩, ⟨[("bx", 32)]⟩, ⟨[("bx", 16)]⟩] ∧
    (∀ t ∈ metered.value.results.trials, ∃ s,
      Judged (meter (.sym "bx")) meterOptions [16] meterShort ⟨[[], []], []⟩ t s) ∧
    metered.value.arguments.int? "bx" = some 4 ∧
    ∃ best e profiler, metered.value.results.IsFastest best e ∧
      metered.value.arguments =
        OrdMap.insert (best.shape.bind meterArguments) "timers" profiler := by
  have hreaches : Reaches (meter (.sym "bx")) meterOptions [meterParameter] meterArguments
      meterStore meterShort 1 [16] :=
    ⟨by decide, by decide, by decide +kernel, by decide +kernel⟩
  have hin : meterArguments.InStore meterStore := by
    intro name a ha
    have hmem := OrdMap.mem_of_find?_ofList ha
    simp only [List.mem_cons, Prod.mk.injEq, List.not_mem_nil, or_false] at hmem
    rcases hmem with ⟨-, rfl⟩ | ⟨-, rfl⟩
    · exact Nat.zero_lt_one
    · trivial
  have hfits : metered.fits = true := by decide +kernel
  have htimed : ¬ ∀ t ∈ metered.value.results.trials, t.elapsed? = none := by decide +kernel
  have hcandidates : (BlockShape.candidates [meterParameter] [16] meterOptions).value =
      [⟨[("bx", 2)]⟩, ⟨[("bx", 4)]⟩, ⟨[("bx", 8)]⟩, ⟨[("bx", 32)]⟩, ⟨[("bx", 16)]⟩] := by
    decide +kernel
  obtain ⟨hshapes, -, hindependent, -, -, hchoice⟩ := tune_chooses_fastest (meter (.sym "bx"))
    meterOptions [meterParameter] meterArguments meterStore meterShort 1 [16] hreaches
    (fun s => ⟨_, rfl⟩) (.inr (.inl (by decide +kernel))) (comparable_ticks _)
  refine ⟨hreaches, hshapes.trans hcandidates, ?_, by decide +kernel, ?_⟩
  · exact hindependent (framed_meter _) (ignoresOutputs_meter _) hin hfits
  · exact hchoice.resolve_left fun hsame => htimed hsame.2

def isFull (args : Arguments) (s : Store Ticks) : Bool :=
  match args.find? "u" with
  | some (.buffer i) => !(s.buffer i).isEmpty
  | _ => false

/-- A meter whose output has room for one element. -/
def singleMeter (extent : Expr) : Operator Ticks :=
  { meter extent with
    run := fun args s =>
      if isFull args s then pure (.error (.failed "no room"), s) else (meter extent).run args s }

theorem framed_singleMeter (extent : Expr) : (singleMeter extent).Framed := by
  apply Operator.framed_of_setup rfl
  intro args s
  unfold singleMeter
  dsimp only
  split
  · exact .refl s _
  · exact keeps_meter extent args s

def sharedArguments : Arguments := .ofList [("timers", .int 4), ("x_size", .int 8)]

def singleArguments : Arguments := .ofList [("u", .buffer 0), ("x_size", .int 8)]

def singleShort : Arguments := .ofList [("u", .buffer 1), ("x_size", .int 8)]

def trialOptions : Options := ⟨5, [2, 4], 1000, .basic⟩

/--
Trials get in the way of those after them. In the first case the extent of the array is bound to the
name of the profiler, so it is known for the first shape only, although all three shapes may be run.
In the second case the output is full after the first run, and shapes fail that succeed on their own.
-/
theorem trials_not_independent :
    (Reaches (meter (.sym "timers")) trialOptions [meterParameter] sharedArguments .empty
        sharedArguments 1 [8] ∧
      (∀ shape ∈ (BlockShape.candidates [meterParameter] [8] trialOptions).value,
        refusal? (meter (.sym "timers")) trialOptions [8] sharedArguments shape = none) ∧
      (tune (meter (.sym "timers")) trialOptions [meterParameter] sharedArguments
          .empty).value.results.trials =
        [⟨⟨[("bx", 2)]⟩, .timed 5⟩, ⟨⟨[("bx", 4)]⟩, .skipped .unknownStackSize⟩,
          ⟨⟨[("bx", 8)]⟩, .skipped .unknownStackSize⟩]) ∧
    Reaches (singleMeter (.sym "bx")) trialOptions [meterParameter] singleArguments meterStore
        singleShort 1 [8] ∧
      (singleMeter (.sym "bx")).Framed ∧
      (tune (singleMeter (.sym "bx")) trialOptions [meterParameter] singleArguments
          meterStore).value.results.trials =
        [⟨⟨[("bx", 2)]⟩, .timed 5⟩,
          ⟨⟨[("bx", 4)]⟩, .skipped (.failed "operator failed: no room")⟩,
          ⟨⟨[("bx", 8)]⟩, .skipped (.failed "operator failed: no room")⟩] ∧
      (Bench.attempt (singleMeter (.sym "bx")) trialOptions [8]
          (.start (singleMeter (.sym "bx")) singleArguments meterStore singleShort 1)
          ⟨[("bx", 4)]⟩).value.results.trials = [⟨⟨[("bx", 4)]⟩, .timed 3⟩] := by
  refine ⟨⟨?_, ?_, ?_⟩, ?_, framed_singleMeter _, ?_, ?_⟩
  · exact ⟨by decide, by decide, by decide +kernel, by decide +kernel⟩
  · decide +kernel
  · decide +kernel
  · exact ⟨by decide, by decide, by decide +kernel, by decide +kernel⟩
  · decide +kernel
  · decide +kernel

end Meter

end Stencil.Tuning
