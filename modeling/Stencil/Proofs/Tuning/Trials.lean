import Stencil.Proofs.Tuning.Shapes
import Stencil.Tuning.Tune

/-!
This module contains what a trial can come to and where the tuner can stop. Every shape gets one
record, and the arguments that come out are those of the caller or those of the best trial.
-/

namespace Stencil.Tuning

variable {τ : Type}

def refusal? (op : Operator τ) (o : Options) (limits : List Int) (args : Arguments)
    (shape : BlockShape) : Option SkipReason :=
  if shape.exceeds limits then
    some .tooLarge
  else
    (stackFootprint op.functions (shape.bind args)).value.elim (some .unknownStackSize)
      fun bytes => if o.stackLimit < bytes then some (.stackOverflow bytes) else none

theorem BlockShape.exceeds_eq_false_iff {shape : BlockShape} {limits : List Int} :
    shape.exceeds limits = false ↔ ∀ e ∈ shape.sizes.zip limits, e.1.2 ≤ e.2 := by
  unfold exceeds
  simp only [List.any_eq_false, decide_eq_true_eq, Int.not_lt]

theorem refusal?_eq_none_iff {op : Operator τ} {o : Options} {limits : List Int}
    {args : Arguments} {shape : BlockShape} :
    refusal? op o limits args shape = none ↔
      (∀ e ∈ shape.sizes.zip limits, e.1.2 ≤ e.2) ∧
      ∃ bytes, (stackFootprint op.functions (shape.bind args)).value = some bytes ∧
        bytes ≤ o.stackLimit := by
  rw [← BlockShape.exceeds_eq_false_iff]
  unfold refusal?
  cases shape.exceeds limits with
  | true => simp
  | false =>
    cases (stackFootprint op.functions (shape.bind args)).value with
    | none => simp
    | some bytes => simp

section Launch

variable [Elapsed τ] (op : Operator τ) (args : Arguments) (s : Store τ)

@[simp]
theorem arguments_launch : (op.launch args s).value.arguments =
    args.insert op.profilerName (op.setup s).1 := rfl

@[simp]
theorem store_launch : (op.launch args s).value.store =
    (op.run (args.insert op.profilerName (op.setup s).1) (op.setup s).2).value.2 := rfl

theorem verdict_launch_of_ok {op : Operator τ} {args : Arguments} {s : Store τ} {u : Unit}
    (h : (op.run (args.insert op.profilerName (op.setup s).1) (op.setup s).2).value.1 = .ok u) :
    (op.launch args s).value.verdict =
      .timed (((op.launch args s).value.arguments.elapsed? (op.launch args s).value.store
        op.profilerName).getD Elapsed.zero) := by
  unfold Operator.launch
  dsimp only [Checked.value_bind, Checked.value_pure]
  rw [h]

theorem verdict_launch_of_error {op : Operator τ} {args : Arguments} {s : Store τ} {e : RunError}
    (h : (op.run (args.insert op.profilerName (op.setup s).1) (op.setup s).2).value.1 = .error e) :
    (op.launch args s).value.verdict = .skipped (.failed e.message) := by
  unfold Operator.launch
  dsimp only [Checked.value_bind, Checked.value_pure]
  rw [h]

@[simp]
theorem fits_launch : (op.launch args s).fits =
    (op.run (args.insert op.profilerName (op.setup s).1) (op.setup s).2).fits := by
  unfold Operator.launch
  rw [Checked.fits_bind, Checked.fits_pure, Bool.and_true]

end Launch

namespace Results

theorem mem_timed {r : Results τ} {t : Trial τ} {e : τ} :
    (t, e) ∈ r.timed ↔ t ∈ r.trials ∧ t.elapsed? = some e := by
  unfold timed
  rw [List.mem_filterMap]
  constructor
  · rintro ⟨t', ht', h⟩
    obtain ⟨e', he', heq⟩ := Option.map_eq_some_iff.1 h
    obtain ⟨rfl, rfl⟩ := Prod.mk.inj heq
    exact ⟨ht', he'⟩
  · rintro ⟨ht, he⟩
    exact ⟨t, ht, by rw [he]; rfl⟩

variable [Elapsed τ]

theorem mem_of_foldl_faster (t : Trial τ × τ) (ts : List (Trial τ × τ)) :
    ts.foldl faster t ∈ t :: ts := by
  induction ts generalizing t with
  | nil => exact List.mem_singleton_self t
  | cons u ts ih =>
    rw [List.foldl_cons]
    rcases List.mem_cons.1 (ih (faster t u)) with heq | hmem
    · rw [heq]
      unfold faster
      split <;> simp
    · exact List.mem_cons_of_mem _ (List.mem_cons_of_mem _ hmem)

theorem mem_of_best? {r : Results τ} {t : Trial τ} (h : r.best? = some t) :
    t ∈ r.trials ∧ ∃ e, t.elapsed? = some e := by
  unfold best? at h
  split at h
  · cases h
  · next u ts htimed =>
    have hmem : ts.foldl faster u ∈ r.timed := by
      rw [htimed]
      exact mem_of_foldl_faster u ts
    rw [← Option.some.inj h]
    obtain ⟨htrial, helapsed⟩ := mem_timed.1 hmem
    exact ⟨htrial, _, helapsed⟩

theorem best?_eq_none_iff {r : Results τ} :
    r.best? = none ↔ ∀ t ∈ r.trials, t.elapsed? = none := by
  constructor
  · intro h t ht
    rw [Option.eq_none_iff_forall_ne_some]
    intro e he
    have hmem := mem_timed.2 ⟨ht, he⟩
    unfold best? at h
    split at h
    · next htimed =>
      rw [htimed] at hmem
      cases hmem
    · cases h
  · intro h
    rw [Option.eq_none_iff_forall_ne_some]
    intro t ht
    obtain ⟨hmem, e, he⟩ := mem_of_best? ht
    rw [h t hmem] at he
    cases he

end Results

namespace Bench

section Step

variable [Elapsed τ] {op : Operator τ} {o : Options} {limits : List Int} {b : Bench τ}
variable {shape : BlockShape}

inductive Attempted (op : Operator τ) (o : Options) (limits : List Int) (b : Bench τ)
    (shape : BlockShape) : Bench τ → Prop where
  | refused {reason : SkipReason} {args : Arguments}
    (refusal : refusal? op o limits b.arguments shape = some reason)
    (arguments : args = b.arguments ∨ args = shape.bind b.arguments) :
    Attempted op o limits b shape
      ⟨args, b.store, b.results.add shape (.skipped reason), b.runs⟩
  | ran {l : Launch τ} (legal : refusal? op o limits b.arguments shape = none)
    (launch : (op.launch (shape.bind b.arguments) b.store).value = l) :
    Attempted op o limits b shape
      ⟨l.arguments, l.store, b.results.add shape l.verdict, b.runs ++ [l.arguments]⟩

theorem attempted_attempt (op : Operator τ) (o : Options) (limits : List Int) (b : Bench τ)
    (shape : BlockShape) : Attempted op o limits b shape (attempt op o limits b shape).value := by
  unfold attempt
  split
  · next hexceeds =>
    have hrefusal : refusal? op o limits b.arguments shape = some .tooLarge := by
      unfold refusal?
      rw [if_pos hexceeds]
    exact .refused hrefusal (.inl rfl)
  · next hexceeds =>
    have hrefusal : refusal? op o limits b.arguments shape =
        (stackFootprint op.functions (shape.bind b.arguments)).value.elim (some .unknownStackSize)
          fun bytes => if o.stackLimit < bytes then some (.stackOverflow bytes) else none := by
      unfold refusal?
      rw [if_neg hexceeds]
    rw [Checked.value_bind]
    cases hbytes : (stackFootprint op.functions (shape.bind b.arguments)).value with
    | none =>
      rw [hbytes] at hrefusal
      exact .refused hrefusal (.inr rfl)
    | some bytes =>
      rw [hbytes, Option.elim_some] at hrefusal
      dsimp only
      split
      · next hlimit =>
        rw [if_pos hlimit] at hrefusal
        exact .refused hrefusal (.inr rfl)
      · next hlimit =>
        rw [if_neg hlimit] at hrefusal
        exact .ran hrefusal rfl

theorem fits_launch_of_attempt (h : (attempt op o limits b shape).fits = true)
    (hlegal : refusal? op o limits b.arguments shape = none) :
    (op.launch (shape.bind b.arguments) b.store).fits = true := by
  obtain ⟨hsizes, bytes, hbytes, hlimit⟩ := refusal?_eq_none_iff.1 hlegal
  unfold attempt at h
  rw [if_neg (by simp [BlockShape.exceeds_eq_false_iff.2 hsizes]), Checked.fits_bind, hbytes,
    Bool.and_eq_true] at h
  have hrun := h.2
  dsimp only at hrun
  rw [if_neg (Nat.not_lt.2 hlimit)] at hrun
  unfold Bench.run at hrun
  rw [Checked.fits_bind, Bool.and_eq_true] at hrun
  exact hrun.1

theorem attemptAll_cons (shapes : List BlockShape) :
    (attemptAll op o limits b (shape :: shapes)).value =
      (attemptAll op o limits (attempt op o limits b shape).value shapes).value := by
  unfold attemptAll
  rw [List.foldlM_cons, Checked.value_bind]

theorem fits_attemptAll_cons {shapes : List BlockShape} :
    (attemptAll op o limits b (shape :: shapes)).fits = true ↔
      (attempt op o limits b shape).fits = true ∧
        (attemptAll op o limits (attempt op o limits b shape).value shapes).fits = true := by
  unfold attemptAll
  rw [List.foldlM_cons, Checked.fits_bind, Bool.and_eq_true]

theorem Attempted.shapes_eq {b' : Bench τ} (h : Attempted op o limits b shape b') :
    b'.results.trials.map (·.shape) = b.results.trials.map (·.shape) ++ [shape] := by
  cases h with
  | refused => simp [Results.add]
  | ran => simp [Results.add]

theorem shapes_attemptAll (shapes : List BlockShape) :
    (attemptAll op o limits b shapes).value.results.trials.map (·.shape) =
      b.results.trials.map (·.shape) ++ shapes := by
  induction shapes generalizing b with
  | nil => simp [attemptAll]
  | cons shape shapes ih =>
    rw [attemptAll_cons, ih, (attempted_attempt op o limits b shape).shapes_eq, List.append_assoc]
    rfl

theorem choose_cases (op : Operator τ) (args : Arguments) (b : Bench τ) :
    (b.choose op args).arguments = args ∧ b.results.best? = none ∨
      ∃ best, b.results.best? = some best ∧ (b.choose op args).arguments =
        (best.shape.bind args).insert op.profilerName (op.setup b.store).1 := by
  unfold choose
  cases b.results.best? with
  | none => exact .inl ⟨rfl, rfl⟩
  | some best => exact .inr ⟨best, rfl, rfl⟩

@[simp]
theorem results_choose (op : Operator τ) (args : Arguments) (b : Bench τ) :
    (b.choose op args).results = b.results := by
  unfold choose
  split <;> rfl

@[simp]
theorem runs_choose (op : Operator τ) (args : Arguments) (b : Bench τ) :
    (b.choose op args).runs = b.runs := by
  unfold choose
  split <;> rfl

end Step

end Bench

theorem shorten_eq_none {op : Operator τ} (h : 1 < (op.loops.filter (·.isSequential)).length)
    (o : Options) (args : Arguments) : (shorten op o args).value = none := by
  unfold shorten
  split
  · next hnil => simp [hnil] at h
  · next hone => simp [hone] at h
  · rfl

theorem limits_eq_none_iff {short : Arguments} {ps : List Parameter} :
    (Tuning.limits short ps).value = none ↔
      ∃ p ∈ ps, short.int? (sizeName p.dimension) = none := by
  induction ps with
  | nil => simp [Tuning.limits]
  | cons p ps ih =>
    rw [Tuning.limits, Checked.value_bind, List.exists_mem_cons_iff, ← ih]
    unfold Parameter.limit?
    cases hsize : short.int? (sizeName p.dimension) with
    | none => simp
    | some size =>
      dsimp only [Checked.value_bind, Checked.value_pure]
      simp

theorem length_limits {short : Arguments} {ps : List Parameter} {limits : List Int}
    (h : (Tuning.limits short ps).value = some limits) : limits.length = ps.length := by
  induction ps generalizing limits with
  | nil =>
    obtain rfl := Option.some.inj h
    rfl
  | cons p ps ih =>
    rw [Tuning.limits, Checked.value_bind] at h
    cases hlimit : (p.limit? short).value with
    | none =>
      rw [hlimit] at h
      cases h
    | some limit =>
      rw [hlimit] at h
      obtain ⟨rest, hrest, rfl⟩ := Option.map_eq_some_iff.1 h
      rw [List.length_cons, List.length_cons, ih hrest]

section Exits

variable {op : Operator τ} {o : Options} {ps : List Parameter} {args : Arguments}
variable {store : Store τ} {short : Arguments} {steps : Int} {limits : List Int}

def squeezed? (op : Operator τ) (o : Options) (args : Arguments) (store : Store τ) :
    Option (Arguments × Int) :=
  (shorten op o (args.copyOutputs op.outputs store).1).value

/-- The tuner gets to the trials, which start from the arguments `short`. -/
structure Reaches (op : Operator τ) (o : Options) (ps : List Parameter) (args : Arguments)
    (store : Store τ) (short : Arguments) (steps : Int) (limits : List Int) : Prop where
  mode : o.mode ≠ .off
  parameters : ps ≠ []
  squeezed : squeezed? op o args store = some (short, steps)
  limits : (Tuning.limits short ps).value = some limits

def Bench.start (op : Operator τ) (args : Arguments) (store : Store τ) (short : Arguments)
    (steps : Int) : Bench τ :=
  ⟨short, (args.copyOutputs op.outputs store).2, ⟨[], steps⟩, []⟩

theorem Reaches.length_sequential_le (h : Reaches op o ps args store short steps limits) :
    (op.loops.filter (·.isSequential)).length ≤ 1 := by
  rw [← Nat.not_lt]
  intro hseveral
  have hsqueezed := h.squeezed
  rw [squeezed?, shorten_eq_none hseveral] at hsqueezed
  cases hsqueezed

theorem Reaches.size_ne_none (h : Reaches op o ps args store short steps limits) {p : Parameter}
    (hp : p ∈ ps) : short.int? (sizeName p.dimension) ≠ none := by
  intro hnone
  have hlimits := h.limits
  rw [limits_eq_none_iff.2 ⟨p, hp, hnone⟩] at hlimits
  cases hlimits

theorem Reaches.names_of_mem (h : Reaches op o ps args store short steps limits)
    {shape : BlockShape} (hshape : shape ∈ (BlockShape.candidates ps limits o).value) :
    shape.names = ps.map (·.name) :=
  BlockShape.names_of_mem_candidates (Nat.le_of_eq (length_limits h.limits).symm) shape hshape

variable [Elapsed τ]

theorem value_tune (h : Reaches op o ps args store short steps limits) :
    (tune op o ps args store).value =
      (Bench.attemptAll op o limits (.start op args store short steps)
        (BlockShape.candidates ps limits o).value).value.choose op args := by
  have hsqueezed : (shorten op o (args.copyOutputs op.outputs store).1).value =
      some (short, steps) := h.squeezed
  unfold tune
  rw [if_neg (not_or.2 ⟨h.mode, h.parameters⟩), Checked.value_bind, hsqueezed]
  dsimp only
  rw [Checked.value_bind, h.limits]
  rfl

theorem fits_attemptAll (h : Reaches op o ps args store short steps limits)
    (hfits : (tune op o ps args store).fits = true) :
    (Bench.attemptAll op o limits (.start op args store short steps)
      (BlockShape.candidates ps limits o).value).fits = true := by
  have hsqueezed : (shorten op o (args.copyOutputs op.outputs store).1).value =
      some (short, steps) := h.squeezed
  unfold tune at hfits
  rw [if_neg (not_or.2 ⟨h.mode, h.parameters⟩), Checked.fits_bind, hsqueezed,
    Bool.and_eq_true] at hfits
  have hlimits := hfits.2
  dsimp only at hlimits
  rw [Checked.fits_bind, h.limits, Bool.and_eq_true] at hlimits
  have hshapes := hlimits.2
  dsimp only at hshapes
  rw [Checked.fits_bind, Bool.and_eq_true, Checked.fits_bind, Bool.and_eq_true] at hshapes
  exact hshapes.2.1

theorem tune_cases (op : Operator τ) (o : Options) (ps : List Parameter) (args : Arguments)
    (store : Store τ) :
    (∃ short steps limits, Reaches op o ps args store short steps limits) ∨
      (tune op o ps args store).value.arguments = args ∧
      ((tune op o ps args store).value.store = store ∨
        (tune op o ps args store).value.store = (args.copyOutputs op.outputs store).2) := by
  by_cases hstop : o.mode = .off ∨ ps = []
  · right
    unfold tune
    rw [if_pos hstop]
    exact ⟨rfl, .inl rfl⟩
  have hstop' := not_or.1 hstop
  cases hshort : (shorten op o (args.copyOutputs op.outputs store).1).value with
  | none =>
    right
    unfold tune
    rw [if_neg hstop, Checked.value_bind, hshort]
    exact ⟨rfl, .inr rfl⟩
  | some squeezed =>
    obtain ⟨short, steps⟩ := squeezed
    cases hlimits : (Tuning.limits short ps).value with
    | none =>
      right
      unfold tune
      rw [if_neg hstop, Checked.value_bind, hshort]
      dsimp only
      rw [Checked.value_bind, hlimits]
      exact ⟨rfl, .inr rfl⟩
    | some limits => exact .inl ⟨short, steps, limits, hstop'.1, hstop'.2, hshort, hlimits⟩

end Exits

end Stencil.Tuning
