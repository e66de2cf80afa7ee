import Mathlib.Algebra.BigOperators.Group.List.Basic
import Stencil.Proofs.Axes
import Stencil.Proofs.Scope.Basic
import Stencil.Proofs.Uniform

/-!
This module contains what the guards of an equation say about the conditional dimensions that it
uses. There is one guard for each root, and it has the factor of the last conditional dimension over
this root. So the guards imply that all conditional dimensions are active if and only if this factor
is a multiple of the factors of each of them.
-/

namespace Stencil

namespace Dimension

def factor : Dimension → Int
  | conditional _ _ n => n
  | _ => 1

/-- All factors up to the root divide the value of the root. -/
def IsActive (p : Point) (d : Dimension) : Prop := d.factors.prod ∣ p d.root

instance (p : Point) (d : Dimension) : Decidable (d.IsActive p) := by
  unfold IsActive
  infer_instance

end Dimension

def Guard.Holds (value : Expr → Rat) (p : Point) : Guard → Prop
  | divisible d n => n ∣ p d
  | condition e => value e ≠ 0

def LoweredEquation.Enabled (value : Expr → Rat) (l : LoweredEquation) (p : Point) : Prop :=
  ∀ d g, l.guards.find? d = some g → g.Holds value p

namespace Axis

def isSampled (root : Dimension) (a : Axis) : Bool :=
  a.dimension.isConditional && decide (a.dimension.root = root)

theorem guard?_of_isConditional {a : Axis} (h : a.dimension.isConditional = true) :
    a.guard? = some (a.dimension.root, .divisible a.dimension.root a.dimension.factor) := by
  unfold guard?
  cases hd : a.dimension with
  | conditional n p k => rfl
  | _ =>
    rw [hd] at h
    cases h

theorem guard?_eq_none {a : Axis} (h : a.dimension.isConditional = false) : a.guard? = none := by
  unfold guard?
  cases hd : a.dimension with
  | conditional n p k =>
    rw [hd] at h
    cases h
  | _ => rfl

end Axis

namespace Equation

def lastSampled? (eq : Equation) (root : Dimension) : Option Axis :=
  eq.axes.reverse.find? (Axis.isSampled root)

def guardFactor (eq : Equation) (root : Dimension) : Int :=
  ((eq.lastSampled? root).map fun a => a.dimension.factor).getD 1

theorem find?_guards (eq : Equation) (root : Dimension) :
    eq.guards.find? root =
      (eq.lastSampled? root).map fun a => .divisible root a.dimension.factor := by
  unfold guards lastSampled?
  rw [OrdMap.find?_ofList, ← List.filterMap_reverse]
  induction eq.axes.reverse with
  | nil => rfl
  | cons a as ih =>
    cases ha : a.dimension.isConditional with
    | false =>
      have hnot : a.isSampled root = false := by simp [Axis.isSampled, ha]
      rw [List.filterMap_cons_none (Axis.guard?_eq_none ha),
        List.find?_cons_of_neg (by simp [hnot]), ih]
    | true =>
      rw [List.filterMap_cons_some (Axis.guard?_of_isConditional ha)]
      by_cases hroot : a.dimension.root = root
      · have hsampled : a.isSampled root = true := by simp [Axis.isSampled, ha, hroot]
        rw [List.find?_cons_of_pos (by simp [hroot]), List.find?_cons_of_pos hsampled,
          Option.map_some, Option.map_some, hroot]
      · have hnot : a.isSampled root = false := by simp [Axis.isSampled, hroot]
        rw [List.find?_cons_of_neg (by simp [hroot]), List.find?_cons_of_neg (by simp [hnot]), ih]

theorem holds_guards_iff {eq : Equation} {value : Expr → Rat} {p : Point} :
    (∀ d g, eq.guards.find? d = some g → g.Holds value p) ↔
      ∀ root, eq.guardFactor root ∣ p root := by
  unfold guardFactor
  apply forall_congr'
  intro root
  rw [find?_guards]
  cases eq.lastSampled? root with
  | none => simp
  | some a => simp [Guard.Holds]

/-- The factor kept for a root is a multiple of all factors of its conditional dimensions. -/
def GuardsSuffice (eq : Equation) : Prop :=
  ∀ r ∈ eq.references, ∀ d ∈ r.function.dimensions, d.isConditional = true →
    d.factors.prod ∣ eq.guardFactor d.root

instance (eq : Equation) : Decidable eq.GuardsSuffice := by
  unfold GuardsSuffice
  infer_instance

end Equation

namespace LoweredEquation

theorem exists_mem_lowerAll {eqs : List Equation} {eq : Equation} (heq : eq ∈ eqs)
    (directions : OrdMap Dimension Direction) :
    ∃ l ∈ (Equation.lowerAll eqs directions).value, l.equation = eq := by
  rw [Equation.value_lowerAll]
  exact ⟨_, List.mem_map_of_mem heq, rfl⟩

theorem guards_of_mem_lowerAll {eqs : List Equation} {directions : OrdMap Dimension Direction}
    {l : LoweredEquation} (hl : l ∈ (Equation.lowerAll eqs directions).value) :
    l.guards = l.equation.guards := by
  rw [Equation.value_lowerAll, List.mem_map] at hl
  obtain ⟨eq, -, rfl⟩ := hl
  rfl

/--
The guards of an equation imply that all conditional dimensions of the arrays that it accesses are
active, if and only if the factor that is kept for each root is a multiple of the product of all
factors between this root and each of these dimensions.
-/
theorem active_of_enabled_iff (eqs : List Equation) (directions : OrdMap Dimension Direction)
    (l : LoweredEquation) (hl : l ∈ (Equation.lowerAll eqs directions).value)
    (value : Expr → Rat) :
    (∀ p : Point, l.Enabled value p → ∀ r, l.equation.Accesses r →
      ∀ d ∈ r.function.dimensions, d.isConditional = true → d.IsActive p) ↔
      l.equation.GuardsSuffice := by
  unfold Enabled Dimension.IsActive Equation.GuardsSuffice
  rw [guards_of_mem_lowerAll hl]
  simp only [Equation.holds_guards_iff, Equation.mem_references_iff_accesses]
  constructor
  · -- The guards hold where each root has the factor that is kept for it as its value.
    intro h r hr d hd hconditional
    exact h l.equation.guardFactor (fun root => dvd_rfl) r hr d hd hconditional
  · intro h p hp r hr d hd hconditional
    exact (h r hr d hd hconditional).trans (hp d.root)

section Sampled

def everySecond : Dimension := .conditional "b" (.time "time") 2

def everyFourth : Dimension := .conditional "a" (.time "time") 4

def snapshots : GridFunction := .declare "v" .dense [everyFourth] [.num 8]

/-- `u[b, c] = v[a]`, where `c` is every second iteration of `b`. -/
def nestedSampling : Equation :=
  ⟨.access (.declare "u" .dense [everySecond, .conditional "c" everySecond 2] [.num 8, .num 8])
      [.sym "b", .sym "c"],
    .access snapshots [.sym "a"], false⟩

theorem active_of_enabled_iff_nestedSampling :
    ∃ l ∈ (Equation.lowerAll [nestedSampling] .empty).value, l.equation = nestedSampling ∧
      nestedSampling.GuardsSuffice ∧
      ∀ p : Point, l.Enabled (fun _ => 0) p → ∀ r, l.equation.Accesses r →
        ∀ d ∈ r.function.dimensions, d.isConditional = true → d.IsActive p := by
  obtain ⟨l, hl, hequation⟩ := exists_mem_lowerAll (List.mem_singleton_self nestedSampling) .empty
  have hsuffice : nestedSampling.GuardsSuffice := by decide +kernel
  refine ⟨l, hl, hequation, hsuffice, ?_⟩
  apply (active_of_enabled_iff [nestedSampling] .empty l hl fun _ => 0).2
  rw [hequation]
  exact hsuffice

/-- `v[a] = w[e]`, where `e` is every third iteration of the root of `a`. -/
def clashingSampling : Equation :=
  ⟨.access snapshots [.sym "a"],
    .access (.declare "w" .dense [.conditional "e" (.time "time") 3] [.num 8]) [.sym "e"], false⟩

/-- The guard with the factor 4 is lost, so the equation is also executed in the third iteration. -/
theorem enabled_clashingSampling :
    ∃ l ∈ (Equation.lowerAll [clashingSampling] .empty).value, l.equation = clashingSampling ∧
      l.Enabled (fun _ => 0) (fun _ => 3) ∧
      l.equation.Accesses ⟨snapshots, [.sym "a"]⟩ ∧ everyFourth ∈ snapshots.dimensions ∧
      everyFourth.isConditional = true ∧ ¬ everyFourth.IsActive fun _ => 3 := by
  obtain ⟨l, hl, hequation⟩ :=
    exists_mem_lowerAll (List.mem_singleton_self clashingSampling) .empty
  have hguards : l.guards = OrdMap.empty.insert (.time "time") (.divisible (.time "time") 3) := by
    rw [guards_of_mem_lowerAll hl, hequation]
    decide +kernel
  refine ⟨l, hl, hequation, ?_, ?_, by decide, by decide, by decide⟩
  · intro d g hg
    rw [hguards, OrdMap.find?_insert] at hg
    split at hg
    · obtain rfl := Option.some.inj hg
      exact dvd_rfl
    · cases hg
  · rw [hequation]
    exact .inl rfl

end Sampled

end LoweredEquation

end Stencil
