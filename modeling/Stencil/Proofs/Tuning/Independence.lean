import Stencil.Proofs.Expr.Eval
import Stencil.Proofs.Tuning.Frame

/-!
This module contains what trials leave to the trials after them. They share one map of arguments,
but each shape hides the sizes of the one before. What stays from the runs before is a profiler and
what the outputs hold, so shapes are judged on their own unless an array on the stack is sized by
what the caller bound to the profiler's name, or a run reads what another one has written.
-/

namespace Stencil.Tuning

variable {τ : Type}

section Footprint

variable {ρ ρ' : String → Option Int}

theorem volume_congr {extents : List Expr} (h : ∀ e ∈ extents, ∀ s ∈ e.symbols, ρ s = ρ' s)
    (acc : Nat) : volume ρ acc extents = volume ρ' acc extents := by
  induction extents generalizing acc with
  | nil => rfl
  | cons e extents ih =>
    rw [List.forall_mem_cons] at h
    rw [volume, volume, Expr.evaluate_congr h.1]
    apply bind_congr
    intro value
    split
    · exact ih h.2 _
    · rfl

theorem bytesOnStack_congr {fs : List GridFunction}
    (h : ∀ f ∈ fs, f.isStackArray = true → ∀ e ∈ f.shape, ∀ s ∈ e.symbols, ρ s = ρ' s)
    (acc : Nat) : bytesOnStack ρ acc fs = bytesOnStack ρ' acc fs := by
  induction fs generalizing acc with
  | nil => rfl
  | cons f fs ih =>
    rw [List.forall_mem_cons] at h
    rw [bytesOnStack, bytesOnStack]
    split
    · next hstack =>
      rw [volume_congr (h.1 hstack)]
      apply bind_congr
      intro elements
      split
      · exact ih h.2 _
      · rfl
    · exact ih h.2 acc

end Footprint

/--
No array on the stack is sized by what the caller bound to the name of the profiler, which is bound
to a profiler once a shape has been run.
-/
def ProfilerApart (op : Operator τ) (ps : List Parameter) (short : Arguments) : Prop :=
  op.profilerName ∈ ps.map (·.name) ∨ short.int? op.profilerName = none ∨
    ∀ f ∈ op.functions, f.isStackArray = true → ∀ e ∈ f.shape, op.profilerName ∉ e.symbols

structure Follows (op : Operator τ) (ps : List Parameter) (short args : Arguments) : Prop where
  find?_eq : ∀ name, name ∉ ps.map (·.name) → name ≠ op.profilerName →
    args.find? name = short.find? name
  profiler : op.profilerName ∉ ps.map (·.name) →
    args.int? op.profilerName = short.int? op.profilerName ∨ args.int? op.profilerName = none

namespace Follows

variable {op : Operator τ} {ps : List Parameter} {short args : Arguments} {shape : BlockShape}

theorem refl (op : Operator τ) (ps : List Parameter) (short : Arguments) :
    Follows op ps short short :=
  ⟨fun _ _ _ => rfl, fun _ => .inl rfl⟩

theorem int?_bind_of_notMem {name : String} (h : name ∉ shape.names) (args : Arguments) :
    (shape.bind args).int? name = args.int? name := by
  unfold Arguments.int?
  rw [BlockShape.find?_bind_of_notMem h]

theorem bind (h : Follows op ps short args) (hnames : shape.names = ps.map (·.name)) :
    Follows op ps short (shape.bind args) where
  find?_eq name hname hprofiler := by
    rw [BlockShape.find?_bind_of_notMem (hnames ▸ hname)]
    exact h.find?_eq name hname hprofiler
  profiler hname := by
    rw [int?_bind_of_notMem (hnames ▸ hname)]
    exact h.profiler hname

theorem insert_profiler (h : Follows op ps short args) (i : Nat) :
    Follows op ps short (args.insert op.profilerName (.profiler i)) where
  find?_eq name hname hprofiler := by
    rw [OrdMap.find?_insert, if_neg hprofiler.symm]
    exact h.find?_eq name hname hprofiler
  profiler _ := by
    right
    unfold Arguments.int?
    rw [OrdMap.find?_insert, if_pos rfl]
    rfl

theorem insert_bind_eq (h : Follows op ps short args) (hnames : shape.names = ps.map (·.name))
    (a : Argument) :
    OrdMap.insert (shape.bind args) op.profilerName a =
      OrdMap.insert (shape.bind short) op.profilerName a := by
  apply OrdMap.ext_find?
  intro name
  rw [OrdMap.find?_insert, OrdMap.find?_insert]
  split
  · rfl
  · next hprofiler =>
    apply BlockShape.find?_bind_congr
    rw [hnames]
    intro hname
    exact h.find?_eq name hname (Ne.symm hprofiler)

theorem int?_bind_eq (h : Follows op ps short args) (hapart : ProfilerApart op ps short)
    (hnames : shape.names = ps.map (·.name)) {f : GridFunction} (hf : f ∈ op.functions)
    (hstack : f.isStackArray = true) {e : Expr} (he : e ∈ f.shape) {s : String}
    (hs : s ∈ e.symbols) : (shape.bind args).int? s = (shape.bind short).int? s := by
  by_cases hname : s ∈ shape.names
  · obtain ⟨size, hsize⟩ := BlockShape.exists_find?_bind hname
    unfold Arguments.int?
    rw [hsize, hsize]
  · rw [int?_bind_of_notMem hname, int?_bind_of_notMem hname]
    rw [hnames] at hname
    by_cases hprofiler : s = op.profilerName
    · subst hprofiler
      rcases hapart with hmem | hnone | hunused
      · exact absurd hmem hname
      · rcases h.profiler hname with hsame | hnone'
        · exact hsame
        · rw [hnone, hnone']
      · exact absurd hs (hunused f hf hstack e he)
    · unfold Arguments.int?
      rw [h.find?_eq s hname hprofiler]

theorem refusal?_eq (h : Follows op ps short args) (hapart : ProfilerApart op ps short)
    (hnames : shape.names = ps.map (·.name)) (o : Options) (limits : List Int) :
    refusal? op o limits args shape = refusal? op o limits short shape := by
  have hfootprint : stackFootprint op.functions (shape.bind args) =
      stackFootprint op.functions (shape.bind short) := by
    apply bytesOnStack_congr
    intro f hf hstack e he s hs
    exact h.int?_bind_eq hapart hnames hf hstack he hs
  unfold refusal?
  rw [hfootprint]

theorem launch_eq [Elapsed τ] (h : Follows op ps short args)
    (hnames : shape.names = ps.map (·.name)) (s : Store τ) :
    op.launch (shape.bind args) s = op.launch (shape.bind short) s := by
  unfold Operator.launch
  dsimp only
  rw [h.insert_bind_eq hnames]

theorem attempted [Elapsed τ] {o : Options} {limits : List Int} {b b' : Bench τ}
    (h : Follows op ps short b.arguments) (hsetup : ∀ s, ∃ i, (op.setup s).1 = .profiler i)
    (hnames : shape.names = ps.map (·.name)) (hattempted : b.Attempted op o limits shape b') :
    Follows op ps short b'.arguments := by
  cases hattempted with
  | refused _ hargs =>
    rcases hargs with rfl | rfl
    · exact h
    · exact h.bind hnames
  | ran _ hlaunch =>
    subst hlaunch
    obtain ⟨i, hi⟩ := hsetup b.store
    rw [arguments_launch, hi]
    exact (h.bind hnames).insert_profiler i

end Follows

/-- What a record says of a shape that is tried in a store, and the store that it leaves. -/
inductive Judged [Elapsed τ] (op : Operator τ) (o : Options) (limits : List Int)
    (short : Arguments) (s : Store τ) : Trial τ → Store τ → Prop where
  | refused {shape : BlockShape} {reason : SkipReason}
    (refusal : refusal? op o limits short shape = some reason) :
    Judged op o limits short s ⟨shape, .skipped reason⟩ s
  | ran {shape : BlockShape} {l : Launch τ} (legal : refusal? op o limits short shape = none)
    (launch : (op.launch (shape.bind short) s).value = l) :
    Judged op o limits short s ⟨shape, l.verdict⟩ l.store

/-- What records say of shapes, each of which is tried in the store that the one before leaves. -/
inductive JudgedInTurn [Elapsed τ] (op : Operator τ) (o : Options) (limits : List Int)
    (short : Arguments) : Store τ → List (Trial τ) → Store τ → Prop where
  | nil {s : Store τ} : JudgedInTurn op o limits short s [] s
  | cons {s s' s'' : Store τ} {t : Trial τ} {ts : List (Trial τ)}
    (first : Judged op o limits short s t s') (rest : JudgedInTurn op o limits short s' ts s'') :
    JudgedInTurn op o limits short s (t :: ts) s''

theorem JudgedInTurn.concat [Elapsed τ] {op : Operator τ} {o : Options} {limits : List Int}
    {short : Arguments} {s s' s'' : Store τ} {t : Trial τ} {ts : List (Trial τ)}
    (h : JudgedInTurn op o limits short s ts s') (hlast : Judged op o limits short s' t s'') :
    JudgedInTurn op o limits short s (ts ++ [t]) s'' := by
  induction h with
  | nil => exact .cons hlast .nil
  | cons first _ ih => exact .cons first (ih hlast)

def IsRunOf (op : Operator τ) (short : Arguments) (shape : BlockShape) (args : Arguments) : Prop :=
  ∃ profiler, args = (shape.bind short).insert op.profilerName profiler

structure Tried [Elapsed τ] (op : Operator τ) (o : Options) (ps : List Parameter)
    (limits : List Int) (short : Arguments) (s : Store τ) (shapes : List BlockShape)
    (b : Bench τ) : Prop where
  follows : Follows op ps short b.arguments
  judged : JudgedInTurn op o limits short s b.results.trials b.store
  runs : List.Forall₂ (IsRunOf op short)
    (shapes.filter fun shape => (refusal? op o limits short shape).isNone) b.runs

namespace Tried

variable [Elapsed τ] {op : Operator τ} {o : Options} {ps : List Parameter} {limits : List Int}
variable {short : Arguments} {s : Store τ} {shapes : List BlockShape} {b b' : Bench τ}

theorem attempted (h : Tried op o ps limits short s shapes b)
    (hsetup : ∀ s, ∃ i, (op.setup s).1 = .profiler i) (hapart : ProfilerApart op ps short)
    {shape : BlockShape} (hnames : shape.names = ps.map (·.name))
    (hattempted : b.Attempted op o limits shape b') :
    Tried op o ps limits short s (shapes ++ [shape]) b' := by
  have hfollows := h.follows.attempted hsetup hnames hattempted
  have hrefusal := h.follows.refusal?_eq hapart hnames o limits
  cases hattempted with
  | refused refusal _ =>
    rw [hrefusal] at refusal
    refine ⟨hfollows, h.judged.concat (.refused refusal), ?_⟩
    rw [List.filter_append, List.filter_cons_of_neg (by simp [refusal]), List.filter_nil,
      List.append_nil]
    exact h.runs
  | ran legal launch =>
    rw [hrefusal] at legal
    rw [h.follows.launch_eq hnames] at launch
    refine ⟨hfollows, h.judged.concat (.ran legal launch), ?_⟩
    have hrun : IsRunOf op short shape (op.launch (shape.bind short) b.store).value.arguments :=
      ⟨_, arguments_launch op _ b.store⟩
    rw [launch] at hrun
    rw [List.filter_append, List.filter_cons_of_pos (by simp [legal]), List.filter_nil]
    exact List.rel_append h.runs (.cons hrun .nil)

theorem attemptAll (h : Tried op o ps limits short s shapes b)
    (hsetup : ∀ s, ∃ i, (op.setup s).1 = .profiler i) (hapart : ProfilerApart op ps short)
    {shapes' : List BlockShape} (hnames : ∀ shape ∈ shapes', shape.names = ps.map (·.name)) :
    Tried op o ps limits short s (shapes ++ shapes')
      (Bench.attemptAll op o limits b shapes').value := by
  induction shapes' generalizing shapes b with
  | nil =>
    rw [List.append_nil]
    exact h
  | cons shape shapes' ih =>
    rw [List.forall_mem_cons] at hnames
    have hnext := h.attempted hsetup hapart hnames.1
      (Bench.attempted_attempt op o limits b shape)
    have hall := ih hnext hnames.2
    rw [List.append_assoc] at hall
    rw [Bench.attemptAll_cons]
    exact hall

end Tried

section Outputs

variable [Elapsed τ] {op : Operator τ} {s : Store τ}

/--
What becomes of a run does not depend on what runs before it have written, nor on the profilers that
they have left in the store.
-/
def Operator.IgnoresOutputs (op : Operator τ) : Prop :=
  ∀ (args : Arguments) (s s' : Store τ), args.InStore s → s.Keeps s' (op.Touches args) →
    (op.launch args s').value.verdict = (op.launch args s).value.verdict

/-- A bench on which every record is the one that its shape would have got in the store `s`. -/
structure Independent (op : Operator τ) (o : Options) (ps : List Parameter) (limits : List Int)
    (short : Arguments) (s : Store τ) (b : Bench τ) : Prop where
  follows : Follows op ps short b.arguments
  keeps : ∀ shape : BlockShape, shape.names = ps.map (·.name) →
    s.Keeps b.store (op.Touches (shape.bind short))
  judged : ∀ t ∈ b.results.trials, ∃ s', Judged op o limits short s t s'

namespace Independent

variable {o : Options} {ps : List Parameter} {limits : List Int} {short : Arguments} {b : Bench τ}

theorem attempt (h : Independent op o ps limits short s b) (hop : op.Framed)
    (hignores : op.IgnoresOutputs) (hapart : ProfilerApart op ps short) {shape : BlockShape}
    (hin : Arguments.InStore (shape.bind short) s) (hnames : shape.names = ps.map (·.name))
    (hfits : (Bench.attempt op o limits b shape).fits = true) :
    Independent op o ps limits short s (Bench.attempt op o limits b shape).value := by
  have hattempted := Bench.attempted_attempt op o limits b shape
  have hfollows := h.follows.attempted hop.isProfiler hnames hattempted
  have hrefusal := h.follows.refusal?_eq hapart hnames o limits
  generalize (Bench.attempt op o limits b shape).value = b' at hattempted hfollows
  cases hattempted with
  | refused refusal _ =>
    rw [hrefusal] at refusal
    refine ⟨hfollows, h.keeps, ?_⟩
    intro t ht
    rcases List.mem_append.1 ht with ht | ht
    · exact h.judged t ht
    · rw [List.mem_singleton.1 ht]
      exact ⟨s, .refused refusal⟩
  | ran legal launch =>
    subst launch
    have hlaunch := Bench.fits_launch_of_attempt hfits legal
    rw [h.follows.launch_eq hnames] at hlaunch hfollows ⊢
    rw [hrefusal] at legal
    constructor
    case follows => exact hfollows
    case keeps =>
      intro shape' hnames'
      apply (h.keeps shape' hnames').trans
        (hop.keeps_launch (hin.keeps (h.keeps shape hnames)) hlaunch)
      intro a _ htouches
      exact htouches.bind_congr (hnames.trans hnames'.symm)
    case judged =>
      intro t ht
      rcases List.mem_append.1 ht with ht | ht
      · exact h.judged t ht
      · -- Only outputs have changed since the first trial, so the verdict is the one in `s`.
        rw [List.mem_singleton.1 ht, hignores _ s b.store hin (h.keeps shape hnames)]
        exact ⟨_, .ran legal rfl⟩

theorem attemptAll (h : Independent op o ps limits short s b) (hop : op.Framed)
    (hignores : op.IgnoresOutputs) (hapart : ProfilerApart op ps short)
    (hin : ∀ shape : BlockShape, Arguments.InStore (shape.bind short) s)
    {shapes : List BlockShape} (hnames : ∀ shape ∈ shapes, shape.names = ps.map (·.name))
    (hfits : (Bench.attemptAll op o limits b shapes).fits = true) :
    Independent op o ps limits short s (Bench.attemptAll op o limits b shapes).value := by
  induction shapes generalizing b with
  | nil => exact h
  | cons shape shapes ih =>
    rw [List.forall_mem_cons] at hnames
    obtain ⟨hfirst, hrest⟩ := Bench.fits_attemptAll_cons.1 hfits
    rw [Bench.attemptAll_cons]
    exact ih (h.attempt hop hignores hapart (hin shape) hnames.1 hfirst) hnames.2 hrest

end Independent

end Outputs

namespace Reaches

variable [Elapsed τ] {op : Operator τ} {o : Options} {ps : List Parameter} {args : Arguments}
variable {store : Store τ} {short : Arguments} {steps : Int} {limits : List Int}

theorem tried (h : Reaches op o ps args store short steps limits)
    (hsetup : ∀ s, ∃ i, (op.setup s).1 = .profiler i) (hapart : ProfilerApart op ps short) :
    Tried op o ps limits short (args.copyOutputs op.outputs store).2
      (BlockShape.candidates ps limits o).value
      (Bench.attemptAll op o limits (.start op args store short steps)
        (BlockShape.candidates ps limits o).value).value := by
  have hstart : Tried op o ps limits short (args.copyOutputs op.outputs store).2 []
      (Bench.start op args store short steps) := ⟨.refl op ps short, .nil, .nil⟩
  exact hstart.attemptAll hsetup hapart fun _ => h.names_of_mem

theorem independent (h : Reaches op o ps args store short steps limits)
    (hapart : ProfilerApart op ps short) (hop : op.Framed) (hignores : op.IgnoresOutputs)
    (hargs : args.InStore store) (hfits : (tune op o ps args store).fits = true) :
    Independent op o ps limits short (args.copyOutputs op.outputs store).2
      (Bench.attemptAll op o limits (.start op args store short steps)
        (BlockShape.candidates ps limits o).value).value := by
  have hcopied : Apart op store short (args.copyOutputs op.outputs store).2 :=
    (Arguments.apart_copyOutputs hargs).shorten h.squeezed
  have hstart : Independent op o ps limits short (args.copyOutputs op.outputs store).2
      (Bench.start op args store short steps) :=
    ⟨.refl op ps short, fun _ _ => .refl _ _, fun t ht => by cases ht⟩
  exact hstart.attemptAll hop hignores hapart (fun shape => (hcopied.bind shape).inStore)
    (fun _ => h.names_of_mem) (fits_attemptAll h hfits)

end Reaches

theorem int?_insert_profiler (args : Arguments) (p : String) (i j : Nat) (name : String) :
    Arguments.int? (args.insert p (.profiler i)) name =
      Arguments.int? (args.insert p (.profiler j)) name := by
  unfold Arguments.int?
  rw [OrdMap.find?_insert, OrdMap.find?_insert]
  split <;> rfl

namespace Script

variable {script : Script} {args args' : Arguments} {s s' : Store Seconds} {i j : Nat}

theorem outcome_touch (args : Arguments) (p : String) (i j : Nat) (s s' : Store Seconds) (names : List String) :
    (touch (args.insert p (.profiler i)) s names).1 =
      (touch (args.insert p (.profiler j)) s' names).1 := by
  induction names generalizing s s' with
  | nil => rfl
  | cons name names ih =>
    rw [touch, touch, OrdMap.find?_insert, OrdMap.find?_insert]
    by_cases hname : p = name
    · rw [if_pos hname, if_pos hname]
    · rw [if_neg hname, if_neg hname]
      cases args.find? name with
      | none => rfl
      | some a =>
        cases a with
        | buffer k => exact ih _ _
        | int v => rfl
        | profiler k => rfl

@[simp]
theorem profilers_touch (args : Arguments) (s : Store Seconds) (names : List String) :
    (touch args s names).2.profilers = s.profilers := by
  induction names generalizing s with
  | nil => rfl
  | cons name names ih =>
    rw [touch]
    split
    · exact ih _
    · rfl

theorem distance_congr (h : ∀ name, args.int? name = args'.int? name) (t : Term) :
    t.distance args = t.distance args' := by
  unfold Term.distance
  rw [h]

theorem seconds_congr (h : ∀ name, args.int? name = args'.int? name) (r : Region) :
    r.seconds args = r.seconds args' := by
  unfold Region.seconds
  simp only [distance_congr h]

def times (script : Script) (args : Arguments) : List (String × Seconds) :=
  script.regions.map fun r => (r.name, (r.seconds args).value)

theorem times_congr (h : ∀ name, args.int? name = args'.int? name) :
    script.times args = script.times args' := by
  unfold times
  simp only [seconds_congr h]

theorem elapsed?_record (hprofiler : args.find? script.profilerName = some (.profiler i))
    (hi : i < s.profilers.length) :
    args.elapsed? (script.record args s).value script.profilerName =
      some (Profile.total ((script.times args).foldl (fun p t => p.record t.1 t.2)
        (s.profile i))) := by
  unfold record Arguments.elapsed?
  rw [hprofiler]
  dsimp only
  rw [Checked.value_bind, Checked.value_pure, Store.profile_modifyProfile hi, Checked.value_mapM]
  rfl

theorem outcome_run (script : Script) (args : Arguments) (p : String) (i j : Nat)
    (s s' : Store Seconds) :
    (script.run (args.insert p (.profiler i)) s).value.1 =
      (script.run (args.insert p (.profiler j)) s').value.1 := by
  have htouch := outcome_touch args p i j s s' script.outputs
  have hint := int?_insert_profiler args p i j
  unfold run
  generalize touch (args.insert p (.profiler i)) s script.outputs = touched at htouch ⊢
  generalize touch (args.insert p (.profiler j)) s' script.outputs = touched' at htouch ⊢
  obtain ⟨outcome, t⟩ := touched
  obtain ⟨outcome', t'⟩ := touched'
  obtain rfl : outcome = outcome' := htouch
  cases outcome with
  | error e => rfl
  | ok u =>
    simp only [hint]
    split
    · rfl
    · rw [Checked.value_bind, Checked.value_bind, Checked.value_pure, Checked.value_pure]

theorem store_run_of_ok {u : Unit} (h : (script.run args s).value.1 = .ok u) :
    (script.run args s).value.2 =
      (script.record args (touch args s script.outputs).2).value := by
  unfold run at h ⊢
  split at h
  · cases h
  · next t htouch =>
    split at h
    · cases h
    · next hfault =>
      rw [htouch]
      rfl

theorem elapsed?_run {u : Unit} (hprofiler : args.find? script.profilerName = some (.profiler i))
    (hi : i < s.profilers.length) (h : (script.run args s).value.1 = .ok u) :
    args.elapsed? (script.run args s).value.2 script.profilerName =
      some (Profile.total ((script.times args).foldl (fun p t => p.record t.1 t.2)
        (s.profile i))) := by
  rw [store_run_of_ok h, elapsed?_record hprofiler (by rw [profilers_touch]; exact hi)]
  unfold Store.profile
  rw [profilers_touch]

theorem elapsed?_launch {loops : List Loop} {functions : List GridFunction} {u : Unit}
    (h : (script.run (args.insert script.profilerName (.profiler s.profilers.length))
      (s.addProfile .empty).2).value.1 = .ok u) :
    ((script.toOperator loops functions).launch args s).value.arguments.elapsed?
        ((script.toOperator loops functions).launch args s).value.store
        (script.toOperator loops functions).profilerName =
      some (Profile.total ((script.times (args.insert script.profilerName
        (.profiler s.profilers.length))).foldl (fun p t => p.record t.1 t.2) .empty)) := by
  have hprofiler : (args.insert script.profilerName (.profiler s.profilers.length)).find?
      script.profilerName = some (.profiler s.profilers.length) := by
    rw [OrdMap.find?_insert, if_pos rfl]
  have helapsed := elapsed?_run hprofiler (s.keeps_addProfile .empty fun _ => False).2 h
  rw [s.profile_addProfile] at helapsed
  exact helapsed

theorem ignoresOutputs_toOperator (script : Script) (loops : List Loop)
    (functions : List GridFunction) : (script.toOperator loops functions).IgnoresOutputs := by
  intro args s s' _ _
  have houtcome := outcome_run script args script.profilerName s'.profilers.length
    s.profilers.length (s'.addProfile .empty).2 (s.addProfile .empty).2
  have hint := int?_insert_profiler args script.profilerName s'.profilers.length
    s.profilers.length
  cases h : (script.run (args.insert script.profilerName (.profiler s.profilers.length))
      (s.addProfile .empty).2).value.1 with
  | ok u =>
    rw [h] at houtcome
    rw [verdict_launch_of_ok houtcome, verdict_launch_of_ok h]
    rw [elapsed?_launch houtcome, elapsed?_launch h, times_congr hint]
  | error e =>
    rw [h] at houtcome
    rw [verdict_launch_of_error houtcome, verdict_launch_of_error h]

end Script

end Stencil.Tuning
