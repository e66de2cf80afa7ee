import Mathlib.Data.List.GetD
import Stencil.Proofs.Tuning.Trials
import Stencil.Tuning.Simulated

/-!
This module contains what the tuner leaves alone. Runs write to copies that were stored after the
caller's buffers and profilers, so nothing of the caller's changes, whatever it is bound to and
however often.
-/

namespace Stencil.Tuning

variable {τ : Type}

namespace Store

def Has (s : Store τ) : Argument → Prop
  | .int _ => True
  | .buffer i => i < s.buffers.length
  | .profiler i => i < s.profilers.length

def Agrees (s s' : Store τ) : Argument → Prop
  | .int _ => True
  | .buffer i => s'.buffer i = s.buffer i
  | .profiler i => s'.profile i = s.profile i

/-- A later store has what an earlier one has, unchanged but for what was touched. -/
structure Keeps (s s' : Store τ) (touched : Argument → Prop) : Prop where
  has : ∀ a, s.Has a → s'.Has a
  agrees : ∀ a, s.Has a → ¬ touched a → s.Agrees s' a

variable {s s' s'' : Store τ} {touched touched' : Argument → Prop}

theorem Agrees.trans {a : Argument} (h : s.Agrees s' a) (h' : s'.Agrees s'' a) :
    s.Agrees s'' a := by
  cases a with
  | int => trivial
  | buffer i => exact Eq.trans h' h
  | profiler i => exact Eq.trans h' h

theorem Keeps.refl (s : Store τ) (touched : Argument → Prop) : s.Keeps s touched where
  has _ h := h
  agrees a _ _ := by
    cases a with
    | int => trivial
    | buffer i => rfl
    | profiler i => rfl

theorem Keeps.trans (h : s.Keeps s' touched) (h' : s'.Keeps s'' touched')
    (htouched : ∀ a, s.Has a → touched' a → touched a) : s.Keeps s'' touched where
  has a ha := h'.has a (h.has a ha)
  agrees a ha hnot :=
    (h.agrees a ha hnot).trans (h'.agrees a (h.has a ha) fun ht => hnot (htouched a ha ht))

theorem not_has_addBuffer (s : Store τ) (data : List Float) : ¬ s.Has (s.addBuffer data).1 :=
  Nat.lt_irrefl _

theorem keeps_addBuffer (s : Store τ) (data : List Float) (touched : Argument → Prop) :
    s.Keeps (s.addBuffer data).2 touched ∧ (s.addBuffer data).2.Has (s.addBuffer data).1 := by
  refine ⟨⟨?_, ?_⟩, ?_⟩
  · intro a ha
    cases a with
    | int => trivial
    | buffer i =>
      show i < (s.buffers ++ [data]).length
      rw [List.length_append]
      exact Nat.lt_add_right _ ha
    | profiler i => exact ha
  · intro a ha _
    cases a with
    | int => trivial
    | buffer i => exact List.getD_append _ _ _ _ ha
    | profiler i => rfl
  · show s.buffers.length < (s.buffers ++ [data]).length
    simp

theorem keeps_addProfile (s : Store τ) (p : Profile τ) (touched : Argument → Prop) :
    s.Keeps (s.addProfile p).2 touched ∧ (s.addProfile p).2.Has (s.addProfile p).1 := by
  refine ⟨⟨?_, ?_⟩, ?_⟩
  · intro a ha
    cases a with
    | int => trivial
    | buffer i => exact ha
    | profiler i =>
      show i < (s.profilers ++ [p]).length
      rw [List.length_append]
      exact Nat.lt_add_right _ ha
  · intro a ha _
    cases a with
    | int => trivial
    | buffer i => rfl
    | profiler i => exact List.getD_append _ _ _ _ ha
  · show s.profilers.length < (s.profilers ++ [p]).length
    simp

theorem getD_modify_of_ne {α : Type} (as : List α) (f : α → α) {i j : Nat} (h : i ≠ j) (a : α) :
    (as.modify i f).getD j a = as.getD j a := by
  rw [List.getD_eq_getElem?_getD, List.getElem?_modify_ne f as h, List.getD_eq_getElem?_getD]

theorem keeps_modifyBuffer (s : Store τ) (i : Nat) (f : List Float → List Float) :
    s.Keeps (s.modifyBuffer i f) (· = .buffer i) where
  has a ha := by
    cases a with
    | int => trivial
    | buffer j =>
      show j < (s.buffers.modify i f).length
      rw [List.length_modify]
      exact ha
    | profiler j => exact ha
  agrees a _ hnot := by
    cases a with
    | int => trivial
    | buffer j =>
      exact getD_modify_of_ne _ f (fun heq => hnot (congrArg Argument.buffer heq.symm)) _
    | profiler j => rfl

theorem profile_addProfile (s : Store τ) (p : Profile τ) :
    (s.addProfile p).2.profile s.profilers.length = p := by
  show (s.profilers ++ [p]).getD s.profilers.length .empty = p
  rw [List.getD_append_right _ _ _ _ (Nat.le_refl _), Nat.sub_self]
  rfl

theorem profile_modifyProfile {s : Store τ} {i : Nat} (hi : i < s.profilers.length)
    (f : Profile τ → Profile τ) : (s.modifyProfile i f).profile i = f (s.profile i) := by
  show (s.profilers.modify i f).getD i .empty = f (s.profilers.getD i .empty)
  rw [List.getD_eq_getElem?_getD, List.getElem?_modify_eq, List.getD_eq_getElem _ _ hi,
    List.getElem?_eq_getElem hi]
  rfl

theorem keeps_modifyProfile (s : Store τ) (i : Nat) (f : Profile τ → Profile τ) :
    s.Keeps (s.modifyProfile i f) (· = .profiler i) where
  has a ha := by
    cases a with
    | int => trivial
    | buffer j => exact ha
    | profiler j =>
      show j < (s.profilers.modify i f).length
      rw [List.length_modify]
      exact ha
  agrees a _ hnot := by
    cases a with
    | int => trivial
    | buffer j => rfl
    | profiler j =>
      exact getD_modify_of_ne _ f (fun heq => hnot (congrArg Argument.profiler heq.symm)) _

end Store

def Arguments.InStore (args : Arguments) (s : Store τ) : Prop :=
  ∀ name a, args.find? name = some a → s.Has a

theorem Arguments.InStore.keeps {args : Arguments} {s s' : Store τ} {touched : Argument → Prop}
    (h : args.InStore s) (hkeeps : s.Keeps s' touched) : args.InStore s' :=
  fun name a ha => hkeeps.has a (h name a ha)

theorem Arguments.InStore.insert {args : Arguments} {s : Store τ} (h : args.InStore s)
    (name : String) {a : Argument} (ha : s.Has a) : Arguments.InStore (args.insert name a) s := by
  intro name' a' ha'
  rw [OrdMap.find?_insert] at ha'
  split at ha'
  · obtain rfl := Option.some.inj ha'
    exact ha
  · exact h name' a' ha'

/-- What a run may change: the buffers of the outputs, and the profiler. -/
def Operator.Touches (op : Operator τ) (args : Arguments) : Argument → Prop
  | .int _ => False
  | .buffer i => ∃ name ∈ op.outputs, args.find? name = some (.buffer i)
  | .profiler i => args.find? op.profilerName = some (.profiler i)

theorem Operator.Touches.bind_congr {op : Operator τ} {args : Arguments} {shape shape' : BlockShape}
    (hnames : shape.names = shape'.names) {a : Argument} (h : op.Touches (shape.bind args) a) :
    op.Touches (shape'.bind args) a := by
  have hfind {name : String} (ha : a.toInt? = none)
      (hname : (shape.bind args).find? name = some a) : (shape'.bind args).find? name = some a := by
    have hnot : name ∉ shape.names := by
      intro hmem
      obtain ⟨size, hsize⟩ := BlockShape.exists_find?_bind hmem
      rw [hsize] at hname
      obtain rfl := Option.some.inj hname
      cases ha
    rw [BlockShape.find?_bind_of_notMem hnot] at hname
    rw [BlockShape.find?_bind_of_notMem (hnames ▸ hnot), hname]
  cases a with
  | int v => exact h
  | buffer i =>
    obtain ⟨name, hname, hi⟩ := h
    exact ⟨name, hname, hfind rfl hi⟩
  | profiler i => exact hfind rfl h

/-- An operator whose profilers are new, and whose runs change their outputs and profiler only. -/
structure Operator.Framed (op : Operator τ) : Prop where
  isProfiler : ∀ s : Store τ, ∃ i, (op.setup s).1 = .profiler i
  isNew : ∀ s : Store τ, ¬ s.Has (op.setup s).1 ∧ (op.setup s).2.Has (op.setup s).1
  setup : ∀ s : Store τ, s.Keeps (op.setup s).2 fun _ => False
  run : ∀ (args : Arguments) (s : Store τ), args.InStore s → (op.run args s).fits = true →
    s.Keeps (op.run args s).value.2 (op.Touches args)

theorem Operator.framed_of_setup {op : Operator τ} (hsetup : op.setup = (·.addProfile .empty))
    (hrun : ∀ args (s : Store τ), s.Keeps (op.run args s).value.2 (op.Touches args)) :
    op.Framed where
  isProfiler s := ⟨_, by rw [hsetup]; rfl⟩
  isNew s := by
    rw [hsetup]
    exact ⟨Nat.lt_irrefl _, (s.keeps_addProfile .empty fun _ => False).2⟩
  setup s := by
    rw [hsetup]
    exact (s.keeps_addProfile .empty fun _ => False).1
  run args s _ _ := hrun args s

theorem Operator.Framed.inStore_launch {op : Operator τ} (hop : op.Framed) {args : Arguments}
    {s : Store τ} (h : args.InStore s) :
    Arguments.InStore (args.insert op.profilerName (op.setup s).1) (op.setup s).2 :=
  (h.keeps (hop.setup s)).insert op.profilerName (hop.isNew s).2

theorem Operator.Framed.keeps_launch [Elapsed τ] {op : Operator τ} (hop : op.Framed)
    {args : Arguments} {s : Store τ} (hin : args.InStore s)
    (hfits : (op.launch args s).fits = true) :
    s.Keeps (op.launch args s).value.store (op.Touches args) := by
  rw [fits_launch] at hfits
  have hsetup : s.Keeps (op.setup s).2 (op.Touches args) :=
    ⟨(hop.setup s).has, fun a ha _ => (hop.setup s).agrees a ha not_false⟩
  rw [store_launch]
  apply hsetup.trans (hop.run _ _ (hop.inStore_launch hin) hfits)
  intro a ha htouches
  cases a with
  | int v => exact htouches
  | buffer i =>
    obtain ⟨name, hname, hi⟩ := htouches
    rw [OrdMap.find?_insert] at hi
    split at hi
    · obtain ⟨j, hj⟩ := hop.isProfiler s
      rw [hj] at hi
      cases hi
    · exact ⟨name, hname, hi⟩
  | profiler i =>
    -- The profiler of the run is new, so it is not the one at `i`.
    unfold Operator.Touches at htouches
    dsimp only at htouches
    rw [OrdMap.find?_insert, if_pos rfl] at htouches
    rw [← Option.some.inj htouches] at ha
    exact absurd ha (hop.isNew s).1

/--
The arguments of a run and the store that it starts from: the caller's store `s` is still there, and
the outputs are bound to buffers that are not in it.
-/
structure Apart (op : Operator τ) (s : Store τ) (args : Arguments) (s' : Store τ) : Prop where
  keeps : s.Keeps s' fun _ => False
  inStore : args.InStore s'
  outputs : ∀ name ∈ op.outputs, ∀ i, args.find? name = some (.buffer i) → ¬ s.Has (.buffer i)

namespace Apart

variable {op : Operator τ} {s s' : Store τ} {args : Arguments}

theorem insert_int (h : Apart op s args s') (name : String) (v : Int) :
    Apart op s (args.insert name (.int v)) s' where
  keeps := h.keeps
  inStore := h.inStore.insert name trivial
  outputs name' hname' i hi := by
    rw [OrdMap.find?_insert] at hi
    split at hi
    · cases hi
    · exact h.outputs name' hname' i hi

theorem bind (h : Apart op s args s') (shape : BlockShape) :
    Apart op s (shape.bind args) s' := by
  unfold BlockShape.bind
  generalize shape.sizes = sizes
  induction sizes generalizing args with
  | nil => exact h
  | cons e sizes ih => exact ih (h.insert_int e.1 e.2)

theorem shorten (h : Apart op s args s') {o : Options} {short : Arguments} {steps : Int}
    (hshort : (shorten op o args).value = some (short, steps)) : Apart op s short s' := by
  unfold Tuning.shorten at hshort
  split at hshort
  · obtain rfl := (Prod.mk.inj (Option.some.inj hshort)).1
    exact h
  · obtain rfl := (Prod.mk.inj (Option.some.inj hshort)).1
    unfold bindSteps
    dsimp only
    split
    · exact (h.insert_int _ _).insert_int _ _
    · exact h.insert_int _ _
  · cases hshort

theorem launch (hop : op.Framed) (h : Apart op s args s') :
    Apart op s (args.insert op.profilerName (op.setup s').1) (op.setup s').2 where
  keeps := h.keeps.trans (hop.setup s') fun _ _ hnot => hnot
  inStore := hop.inStore_launch h.inStore
  outputs name hname i hi := by
    rw [OrdMap.find?_insert] at hi
    split at hi
    · obtain ⟨j, hj⟩ := hop.isProfiler s'
      rw [hj] at hi
      cases hi
    · exact h.outputs name hname i hi

theorem run (hop : op.Framed) (h : Apart op s args s')
    (hprofiler : ∀ i, args.find? op.profilerName = some (.profiler i) → ¬ s.Has (.profiler i))
    (hfits : (op.run args s').fits = true) : Apart op s args (op.run args s').value.2 where
  keeps := by
    apply h.keeps.trans (hop.run args s' h.inStore hfits)
    intro a ha htouches
    cases a with
    | int v => exact htouches
    | buffer i =>
      obtain ⟨name, hname, hi⟩ := htouches
      exact h.outputs name hname i hi ha
    | profiler i => exact hprofiler i htouches ha
  inStore := h.inStore.keeps (hop.run args s' h.inStore hfits)
  outputs := h.outputs

end Apart

namespace Arguments

variable {op : Operator τ} {s s' : Store τ} {args copied : Arguments}

theorem keeps_copy (s : Store τ) (a : Argument) :
    s.Keeps (a.copy s).2 (fun _ => False) ∧ (a.copy s).2.Has (a.copy s).1 ∧
      ∀ i, (a.copy s).1 = .buffer i → ¬ s.Has (.buffer i) := by
  cases a with
  | int v => exact ⟨.refl s _, trivial, fun i hi => by cases hi⟩
  | buffer j =>
    obtain ⟨hkeeps, hhas⟩ := s.keeps_addBuffer (s.buffer j) fun _ => False
    refine ⟨hkeeps, hhas, ?_⟩
    intro i hi
    rw [← hi]
    exact s.not_has_addBuffer (s.buffer j)
  | profiler j =>
    obtain ⟨hkeeps, hhas⟩ := s.keeps_addProfile .empty fun _ => False
    exact ⟨hkeeps, hhas, fun i hi => by cases hi⟩

theorem copyOutputs_go (args : Arguments) (names : List String) (hkeeps : s.Keeps s' fun _ => False)
    (hin : copied.InStore s') :
    s.Keeps (copyOutputs.go args copied s' names).2 (fun _ => False) ∧
      (copyOutputs.go args copied s' names).1.InStore (copyOutputs.go args copied s' names).2 ∧
      ∀ name, (copyOutputs.go args copied s' names).1.find? name = copied.find? name ∧
          (name ∈ names → args.find? name = none) ∨
        ∀ i, (copyOutputs.go args copied s' names).1.find? name = some (.buffer i) →
          ¬ s.Has (.buffer i) := by
  induction names generalizing copied s' with
  | nil => exact ⟨hkeeps, hin, fun name => .inl ⟨rfl, fun h => by cases h⟩⟩
  | cons first names ih =>
    rw [copyOutputs.go]
    cases hfirst : args.find? first with
    | none =>
      obtain ⟨hkeeps, hin, hnames⟩ := ih hkeeps hin
      refine ⟨hkeeps, hin, fun name => (hnames name).imp_left ?_⟩
      rintro ⟨hsame, hnone⟩
      refine ⟨hsame, fun hname => ?_⟩
      rcases List.mem_cons.1 hname with rfl | hname
      · exact hfirst
      · exact hnone hname
    | some a =>
      obtain ⟨hcopy, hhas, hnew⟩ := keeps_copy s' a
      dsimp only
      have hin' : Arguments.InStore (copied.insert first (a.copy s').1) (a.copy s').2 :=
        (hin.keeps hcopy).insert first hhas
      obtain ⟨hkeeps', hin'', hnames⟩ := ih (hkeeps.trans hcopy fun _ _ h => h) hin'
      refine ⟨hkeeps', hin'', fun name => ?_⟩
      rcases hnames name with ⟨hsame, hnone⟩ | hfresh
      · rw [OrdMap.find?_insert] at hsame
        split at hsame
        · right
          intro i hi hsi
          rw [hsame] at hi
          exact hnew i (Option.some.inj hi) (hkeeps.has _ hsi)
        · next hne =>
          refine .inl ⟨hsame, fun hname => hnone ?_⟩
          exact (List.mem_cons.1 hname).resolve_left fun heq => hne heq.symm
      · exact .inr hfresh

theorem apart_copyOutputs (hin : args.InStore s) :
    Apart op s (args.copyOutputs op.outputs s).1 (args.copyOutputs op.outputs s).2 := by
  obtain ⟨hkeeps, hin', hnames⟩ := copyOutputs_go args op.outputs (.refl s _) hin
  refine ⟨hkeeps, hin', ?_⟩
  intro name hname i hi
  rcases hnames name with ⟨hsame, hnone⟩ | hfresh
  · unfold copyOutputs at hi
    rw [hsame, hnone hname] at hi
    cases hi
  · exact hfresh i hi

end Arguments

namespace Bench

variable [Elapsed τ] {op : Operator τ} {o : Options} {limits : List Int} {b : Bench τ}
variable {s : Store τ}

theorem apart_attempt (hop : op.Framed) (h : Apart op s b.arguments b.store) {shape : BlockShape}
    (hfits : (attempt op o limits b shape).fits = true) :
    Apart op s (attempt op o limits b shape).value.arguments
      (attempt op o limits b shape).value.store := by
  have hattempted := attempted_attempt op o limits b shape
  generalize (attempt op o limits b shape).value = b' at hattempted
  cases hattempted with
  | refused _ hargs =>
    rcases hargs with rfl | rfl
    · exact h
    · exact h.bind shape
  | ran hlegal hlaunch =>
    subst hlaunch
    have hrun := fits_launch_of_attempt hfits hlegal
    rw [fits_launch] at hrun
    rw [arguments_launch, store_launch]
    apply Apart.run hop (Apart.launch hop (h.bind shape)) _ hrun
    intro i hi hsi
    rw [OrdMap.find?_insert, if_pos rfl] at hi
    apply (hop.isNew b.store).1
    rw [Option.some.inj hi]
    exact h.keeps.has _ hsi

theorem apart_attemptAll (hop : op.Framed) (h : Apart op s b.arguments b.store)
    {shapes : List BlockShape} (hfits : (attemptAll op o limits b shapes).fits = true) :
    Apart op s (attemptAll op o limits b shapes).value.arguments
      (attemptAll op o limits b shapes).value.store := by
  induction shapes generalizing b with
  | nil => exact h
  | cons shape shapes ih =>
    obtain ⟨hfirst, hrest⟩ := fits_attemptAll_cons.1 hfits
    rw [attemptAll_cons]
    exact ih (apart_attempt hop h hfirst) hrest

theorem keeps_choose (hop : op.Framed) (args : Arguments) (h : s.Keeps b.store fun _ => False) :
    s.Keeps (b.choose op args).store fun _ => False := by
  unfold choose
  split
  · exact h
  · exact h.trans (hop.setup b.store) fun _ _ hnot => hnot

end Bench

section Caller

variable [Elapsed τ] {op : Operator τ} {o : Options} {ps : List Parameter} {args : Arguments}
variable {store : Store τ} {short : Arguments} {steps : Int} {limits : List Int}

theorem keeps_tune (hop : op.Framed) (hargs : args.InStore store)
    (hfits : (tune op o ps args store).fits = true) :
    store.Keeps (tune op o ps args store).value.store fun _ => False := by
  have hcopied : Apart op store (args.copyOutputs op.outputs store).1
      (args.copyOutputs op.outputs store).2 := Arguments.apart_copyOutputs hargs
  rcases tune_cases op o ps args store with ⟨short, steps, limits, hreaches⟩ | ⟨-, hstore⟩
  · rw [value_tune hreaches]
    apply Bench.keeps_choose hop
    have hstart : Apart op store (Bench.start op args store short steps).arguments
        (Bench.start op args store short steps).store := hcopied.shorten hreaches.squeezed
    exact (Bench.apart_attemptAll hop hstart (fits_attemptAll hreaches hfits)).keeps
  · rcases hstore with hstore | hstore
    · rw [hstore]
      exact .refl store _
    · rw [hstore]
      exact hcopied.keeps

theorem names_of_best? (h : Reaches op o ps args store short steps limits) {best : Trial τ}
    (hbest : (Bench.attemptAll op o limits (.start op args store short steps)
      (BlockShape.candidates ps limits o).value).value.results.best? = some best) :
    best.shape.names = ps.map (·.name) := by
  apply h.names_of_mem
  have hmem := List.mem_map_of_mem (f := (·.shape)) (Results.mem_of_best? hbest).1
  rw [Bench.shapes_attemptAll] at hmem
  exact hmem

/--
Tuning leaves the caller alone. Whatever the caller's arguments refer to has its contents, and
nothing but block sizes and the profiler is bound anew. Nothing at all is bound anew if the tuner
stops early or no trial completes.
-/
theorem tune_leaves_caller (op : Operator τ) (o : Options) (ps : List Parameter)
    (args : Arguments) (store : Store τ) (hop : op.Framed) (hargs : args.InStore store)
    (hfits : (tune op o ps args store).fits = true) :
    (∀ name a, args.find? name = some a → store.Agrees (tune op o ps args store).value.store a) ∧
    (∀ name, name ∉ ps.map (·.name) → name ≠ op.profilerName →
      (tune op o ps args store).value.arguments.find? name = args.find? name) ∧
    (o.mode = .off ∨ ps = [] ∨ 1 < (op.loops.filter (·.isSequential)).length ∨
      (∃ short steps, squeezed? op o args store = some (short, steps) ∧
        ∃ p ∈ ps, short.int? (sizeName p.dimension) = none) ∨
      (∀ t ∈ (tune op o ps args store).value.results.trials, t.elapsed? = none) →
      (tune op o ps args store).value.arguments = args) := by
  have hkeeps := keeps_tune hop hargs hfits
  refine ⟨fun name a ha => hkeeps.agrees a (hargs name a ha) not_false, ?_⟩
  rcases tune_cases op o ps args store with ⟨short, steps, limits, hreaches⟩ | ⟨hsame, -⟩
  · rw [value_tune hreaches]
    generalize hbench : (Bench.attemptAll op o limits (.start op args store short steps)
      (BlockShape.candidates ps limits o).value).value = b
    rcases b.choose_cases op args with ⟨hsame, -⟩ | ⟨best, hbest, hchosen⟩
    · exact ⟨fun name _ _ => by rw [hsame], fun _ => hsame⟩
    · rw [← hbench] at hbest
      have hnames := names_of_best? hreaches hbest
      constructor
      · intro name hname hprofiler
        rw [hchosen, OrdMap.find?_insert, if_neg hprofiler.symm]
        apply BlockShape.find?_bind_of_notMem
        rw [hnames]
        exact hname
      · intro hstop
        exfalso
        rcases hstop with hoff | hnone | hseveral | hunknown | huntimed
        · exact hreaches.mode hoff
        · exact hreaches.parameters hnone
        · exact Nat.not_lt.2 hreaches.length_sequential_le hseveral
        · obtain ⟨short', steps', hsqueezed, p, hp, hunknown⟩ := hunknown
          rw [hreaches.squeezed] at hsqueezed
          obtain ⟨rfl, rfl⟩ := Prod.mk.inj (Option.some.inj hsqueezed)
          exact hreaches.size_ne_none hp hunknown
        · rw [b.results_choose, ← hbench] at huntimed
          obtain ⟨hmem, e, he⟩ := Results.mem_of_best? hbest
          rw [huntimed best hmem] at he
          cases he
  · exact ⟨fun name _ _ => by rw [hsame], fun _ => hsame⟩

end Caller

namespace Script

variable {script : Script} {loops : List Loop} {functions : List GridFunction}
variable {args : Arguments}

theorem keeps_touch {touched : Argument → Prop} (s : Store Seconds) {names : List String}
    (htouched : ∀ name ∈ names, ∀ i, args.find? name = some (.buffer i) → touched (.buffer i)) :
    s.Keeps (touch args s names).2 touched := by
  induction names generalizing s with
  | nil => exact .refl s touched
  | cons name names ih =>
    rw [List.forall_mem_cons] at htouched
    rw [touch]
    split
    · next i hi =>
      have hmodified : s.Keeps (s.modifyBuffer i (·.map (· + 1.0))) touched := by
        apply (Store.Keeps.refl s touched).trans (s.keeps_modifyBuffer i _)
        rintro _ _ rfl
        exact htouched.1 i hi
      exact hmodified.trans (ih _ htouched.2) fun _ _ h => h
    · exact .refl s touched

theorem keeps_record {touched : Argument → Prop} (s : Store Seconds)
    (htouched : ∀ i, args.find? script.profilerName = some (.profiler i) →
      touched (.profiler i)) :
    s.Keeps (script.record args s).value touched := by
  unfold record
  split
  · next i hi =>
    apply (Store.Keeps.refl s touched).trans (s.keeps_modifyProfile i _)
    rintro _ _ rfl
    exact htouched i hi
  · exact .refl s touched

theorem framed_toOperator (script : Script) (loops : List Loop) (functions : List GridFunction) :
    (script.toOperator loops functions).Framed := by
  apply Operator.framed_of_setup rfl
  intro args s
  have htouch : s.Keeps (touch args s script.outputs).2
      ((script.toOperator loops functions).Touches args) :=
    keeps_touch s fun name hname i hi => ⟨name, hname, hi⟩
  show s.Keeps (script.run args s).value.2 _
  unfold run
  split
  · next e s' heq =>
    rw [heq] at htouch
    exact htouch
  · next u s' heq =>
    rw [heq] at htouch
    split
    · exact htouch
    · exact htouch.trans (keeps_record s' fun i hi => hi) fun _ _ h => h

end Script

section Aliased

/-- Writes `u`, fails with blocks of two, and is fastest with blocks of four. -/
def writerScript : Script where
  outputs := ["u"]
  faults := [⟨"bx", 2, "unaligned"⟩]
  regions := [⟨"sweep", .number 1.0, [⟨"bx", 4, .number 1.0⟩]⟩]
  profilerName := "timers"

def writer : Operator Seconds := writerScript.toOperator [⟨.space "x", 0, (0, 0), false⟩] []

def aliased : Arguments :=
  .ofList [("u", .buffer 0), ("v", .buffer 0), ("timers", .profiler 0), ("x_size", .int 16)]

def aliasedStore : Store Seconds := ⟨[[1.0, 2.0]], [.empty]⟩

def aliasedParameter : Parameter := ⟨"bx", .space "x", ⟨.space "x", 0, (0, 0), false⟩⟩

def aliasedOptions : Options := ⟨5, [2, 4, 32], 1000, .basic⟩

def aliasedTuned : Checked (Tuned Seconds) :=
  tune writer aliasedOptions [aliasedParameter] aliased aliasedStore

theorem tune_leaves_caller_aliased :
    writer.Framed ∧ aliased.InStore aliasedStore ∧ aliasedTuned.fits = true ∧
    aliasedStore.Agrees aliasedTuned.value.store (.buffer 0) ∧
    aliasedTuned.value.arguments.find? "v" = some (.buffer 0) := by
  have hin : aliased.InStore aliasedStore := by
    intro name a ha
    have hmem := OrdMap.mem_of_find?_ofList ha
    simp only [List.mem_cons, Prod.mk.injEq, List.not_mem_nil, or_false] at hmem
    rcases hmem with ⟨-, rfl⟩ | ⟨-, rfl⟩ | ⟨-, rfl⟩ | ⟨-, rfl⟩
    · exact Nat.zero_lt_one
    · exact Nat.zero_lt_one
    · exact Nat.zero_lt_one
    · trivial
  have hfits : aliasedTuned.fits = true := by decide +kernel
  have hv : aliased.find? "v" = some (.buffer 0) := by decide +kernel
  have hframed : writer.Framed := Script.framed_toOperator writerScript _ _
  obtain ⟨hagrees, hsame, -⟩ := tune_leaves_caller writer aliasedOptions [aliasedParameter] aliased
    aliasedStore hframed hin hfits
  refine ⟨hframed, hin, hfits, hagrees "v" _ hv, ?_⟩
  exact (hsame "v" (by decide) (by decide)).trans hv

end Aliased

end Stencil.Tuning
