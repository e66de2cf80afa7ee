import Mathlib.Algebra.BigOperators.Group.List.Basic
import Stencil.Proofs.Analysis
import Stencil.Proofs.Fraction
import Stencil.Proofs.OrdMap
import Stencil.Tuning.Footprint

/-!
This module contains the memory that the arrays on the stack need, as a sum of products of natural
numbers without bounds. A footprint is this sum, and there is one exactly if all extents are natural
numbers and nothing on the way to the sum leaves the range of words.
-/

namespace Stencil.Tuning

variable {ρ : String → Option Int}

theorem word?_eq_some_iff {n m : Nat} : word? n = some m ↔ n < 2 ^ 64 ∧ n = m := by
  unfold word? Word.isUnsigned
  simp only [decide_eq_true_eq]
  split <;> simp_all

theorem natural?_eq_some_iff {q : Rat} {n : Nat} : natural? q = some n ↔ q = n := by
  unfold natural?
  constructor
  · intro h
    split at h
    · next hq =>
      have hnum : (n : Int) = q.num := Option.some.inj h ▸ Int.toNat_of_nonneg hq.2
      rw [← Rat.coe_int_num_of_den_eq_one hq.1, ← hnum, Int.cast_natCast]
    · cases h
  · rintro rfl
    simp

def HaveValues (ρ : String → Option Int) : List Expr → List Nat → Prop :=
  List.Forall₂ fun extent n => (extent.evaluate ρ).value = some (n : Rat)

/--
An array takes a number of bytes: the product of its extents, of which no partial product leaves the
range of words, times the size of an element.
-/
def TakesBytes (ρ : String → Option Int) (f : GridFunction) (bytes : Nat) : Prop :=
  ∃ extents, HaveValues ρ f.shape extents ∧
    (∀ front, front <+: extents → front.prod < 2 ^ 64) ∧
    extents.prod * f.elementType.size = bytes ∧ bytes < 2 ^ 64

/--
A loop that adds up numbers, in some sense, and stops when a number is missing or the range of words
is left. It gets to its end exactly if there are numbers for all members of the list and no partial
result leaves the range of words.
-/
theorem foldlM_eq_some_iff {α : Type} {R : α → Nat → Prop} {f : Nat → α → Option Nat}
    {op : Nat → Nat → Nat}
    (hf : ∀ acc a m, f acc a = some m ↔ ∃ n, R a n ∧ op acc n < 2 ^ 64 ∧ op acc n = m)
    {acc m : Nat} (hacc : acc < 2 ^ 64) (as : List α) :
    as.foldlM f acc = some m ↔ ∃ ns, List.Forall₂ R as ns ∧
      (∀ front, front <+: ns → front.foldl op acc < 2 ^ 64) ∧ ns.foldl op acc = m := by
  induction as generalizing acc with
  | nil =>
    constructor
    · intro h
      refine ⟨[], .nil, fun front hfront => ?_, Option.some.inj h⟩
      rw [List.prefix_nil.1 hfront]
      exact hacc
    · rintro ⟨_, hns, -, rfl⟩
      cases hns
      rfl
  | cons a as ih =>
    rw [List.foldlM_cons, Option.bind_eq_bind, Option.bind_eq_some_iff]
    constructor
    · rintro ⟨_, hstep, hrest⟩
      obtain ⟨n, hn, hword, rfl⟩ := (hf _ _ _).1 hstep
      obtain ⟨ns, hns, hfront, rfl⟩ := (ih hword).1 hrest
      refine ⟨n :: ns, .cons hn hns, fun front h => ?_, rfl⟩
      rcases List.prefix_cons_iff.1 h with rfl | ⟨front, rfl, hprefix⟩
      · exact hacc
      · exact hfront front hprefix
    · rintro ⟨_, hns, hfront, rfl⟩
      cases hns with
      | @cons _ n _ ns hn hns =>
        have hword : op acc n < 2 ^ 64 :=
          hfront [n] (List.cons_prefix_cons.2 ⟨rfl, List.nil_prefix⟩)
        refine ⟨op acc n, (hf _ _ _).2 ⟨n, hn, hword, rfl⟩, (ih hword).2 ⟨ns, hns, ?_, rfl⟩⟩
        exact fun front h => hfront (n :: front) (List.cons_prefix_cons.2 ⟨rfl, h⟩)

theorem value_volume (acc : Nat) (extents : List Expr) :
    (volume ρ acc extents).value = extents.foldlM (fun acc extent =>
      ((extent.evaluate ρ).value.bind natural?).bind fun n => word? (acc * n)) acc := by
  induction extents generalizing acc with
  | nil => rfl
  | cons extent extents ih =>
    rw [volume, Checked.value_bind, List.foldlM_cons]
    split
    · next h =>
      rw [h]
      exact ih _
    · next h =>
      rw [h]
      rfl

theorem value_volume_eq_some_iff {elements : Nat} {extents : List Expr} :
    (volume ρ 1 extents).value = some elements ↔ ∃ ns, HaveValues ρ extents ns ∧
      (∀ front, front <+: ns → front.prod < 2 ^ 64) ∧ ns.prod = elements := by
  simp only [value_volume, List.prod_eq_foldl]
  refine foldlM_eq_some_iff (fun acc extent m => ?_) (by norm_num) extents
  simp only [Option.bind_eq_some_iff, natural?_eq_some_iff, word?_eq_some_iff]
  constructor
  · rintro ⟨n, ⟨_, hvalue, rfl⟩, hword, rfl⟩
    exact ⟨n, hvalue, hword, rfl⟩
  · rintro ⟨n, hvalue, hword, rfl⟩
    exact ⟨n, ⟨_, hvalue, rfl⟩, hword, rfl⟩

theorem addBytes_eq_some_iff {acc m elements : Nat} {t : ElementType} :
    addBytes acc t elements = some m ↔ elements * t.size < 2 ^ 64 ∧
      acc + elements * t.size < 2 ^ 64 ∧ acc + elements * t.size = m := by
  unfold addBytes
  simp only [Option.bind_eq_bind, Option.bind_eq_some_iff, word?_eq_some_iff]
  constructor
  · rintro ⟨_, ⟨hbytes, rfl⟩, hsum, hm⟩
    exact ⟨hbytes, hsum, hm⟩
  · rintro ⟨hbytes, hsum, hm⟩
    exact ⟨_, ⟨hbytes, rfl⟩, hsum, hm⟩

theorem bytesOnStack_filter (fs : List GridFunction) (acc : Nat) :
    bytesOnStack ρ acc (fs.filter (·.isStackArray)) = bytesOnStack ρ acc fs := by
  induction fs generalizing acc with
  | nil => rfl
  | cons f fs ih =>
    by_cases hstack : f.isStackArray = true
    · rw [List.filter_cons_of_pos hstack, bytesOnStack, bytesOnStack, if_pos hstack, if_pos hstack]
      simp only [ih]
    · rw [List.filter_cons_of_neg hstack, ih, bytesOnStack, if_neg hstack]

theorem value_bytesOnStack {fs : List GridFunction} (h : ∀ f ∈ fs, f.isStackArray = true)
    (acc : Nat) :
    (bytesOnStack ρ acc fs).value = fs.foldlM (fun acc f =>
      (volume ρ 1 f.shape).value.bind (addBytes acc f.elementType)) acc := by
  induction fs generalizing acc with
  | nil => rfl
  | cons f fs ih =>
    rw [List.forall_mem_cons] at h
    rw [bytesOnStack, if_pos h.1, Checked.value_bind, List.foldlM_cons]
    split
    · next hbytes =>
      rw [hbytes]
      exact ih h.2 _
    · next hbytes =>
      rw [hbytes]
      rfl

theorem value_stackFootprint_eq_some_iff {fs : List GridFunction} {args : Arguments} {n : Nat} :
    (stackFootprint fs args).value = some n ↔ ∃ bytes,
      List.Forall₂ (TakesBytes args.int?) (fs.filter (·.isStackArray)) bytes ∧
        (∀ front, front <+: bytes → front.sum < 2 ^ 64) ∧ bytes.sum = n := by
  unfold stackFootprint
  rw [← bytesOnStack_filter, value_bytesOnStack fun f hf => (List.mem_filter.1 hf).2]
  simp only [List.sum_eq_foldl]
  refine foldlM_eq_some_iff (fun acc f m => ?_) (Nat.two_pow_pos 64) _
  simp only [Option.bind_eq_some_iff, value_volume_eq_some_iff, addBytes_eq_some_iff]
  constructor
  · rintro ⟨_, ⟨ns, hns, hfront, rfl⟩, hbytes, hsum, rfl⟩
    exact ⟨_, ⟨ns, hns, hfront, rfl, hbytes⟩, hsum, rfl⟩
  · rintro ⟨_, ⟨ns, hns, hfront, rfl, hbytes⟩, hsum, rfl⟩
    exact ⟨_, ⟨ns, hns, hfront, rfl⟩, hbytes, hsum, rfl⟩

theorem fits_volume {extents : List Expr}
    (h : ∀ extent ∈ extents, (extent.evaluate ρ).fits = true) (acc : Nat) :
    (volume ρ acc extents).fits = true := by
  induction extents generalizing acc with
  | nil => rfl
  | cons extent extents ih =>
    rw [List.forall_mem_cons] at h
    rw [volume, Checked.fits_bind, h.1, Bool.true_and]
    split
    · exact ih h.2 _
    · rfl

theorem fits_bytesOnStack {fs : List GridFunction}
    (h : ∀ f ∈ fs, f.isStackArray = true → ∀ extent ∈ f.shape,
      (extent.evaluate ρ).fits = true) (acc : Nat) : (bytesOnStack ρ acc fs).fits = true := by
  induction fs generalizing acc with
  | nil => rfl
  | cons f fs ih =>
    rw [List.forall_mem_cons] at h
    rw [bytesOnStack]
    split
    · next hstack =>
      rw [Checked.fits_bind, fits_volume (h.1 hstack), Bool.true_and]
      split
      · exact ih h.2 _
      · rfl
    · exact ih h.2 acc

theorem Arguments.int?_eq_some_iff {args : Arguments} {name : String} {i : Int} :
    args.int? name = some i ↔ args.find? name = some (.int i) := by
  unfold int?
  rw [Option.bind_eq_some_iff]
  constructor
  · rintro ⟨a, ha, hi⟩
    cases a with
    | int v => rw [ha, ← Option.some.inj hi]
    | buffer | profiler => cases hi
  · exact fun h => ⟨_, h, rfl⟩

/--
If no extent of an array on the stack leaves the range of words when it is evaluated, then there is
an answer. It is a number of bytes exactly if each array takes a number of bytes and no partial sum
of these leaves the range of words, and then it is their sum. Other arrays and arguments that are no
numbers do not count.
-/
theorem stackFootprint_exact (fs : List GridFunction) (args : Arguments)
    (hfits : ∀ f ∈ fs, f.isStackArray = true → ∀ extent ∈ f.shape,
      (extent.evaluate args.int?).fits = true) :
    ∃ footprint, stackFootprint fs args = pure footprint ∧
      (∀ n, footprint = some n ↔ ∃ bytes,
        List.Forall₂ (TakesBytes args.int?) (fs.filter (·.isStackArray)) bytes ∧
          (∀ front, front <+: bytes → front.sum < 2 ^ 64) ∧ bytes.sum = n) ∧
      ∀ (fs' : List GridFunction) (args' : Arguments),
        fs'.filter (·.isStackArray) = fs.filter (·.isStackArray) →
        (∀ name i, args'.find? name = some (.int i) ↔ args.find? name = some (.int i)) →
        stackFootprint fs' args' = pure footprint := by
  have hanswer : stackFootprint fs args = pure (stackFootprint fs args).value :=
    Checked.eq_pure_iff.2 ⟨fits_bytesOnStack hfits 0, rfl⟩
  refine ⟨_, hanswer, fun n => value_stackFootprint_eq_some_iff, fun fs' args' hfs hargs => ?_⟩
  have hint : args'.int? = args.int? := by
    funext name
    ext i
    rw [Arguments.int?_eq_some_iff, Arguments.int?_eq_some_iff, hargs]
  rw [← hanswer]
  unfold stackFootprint
  rw [← bytesOnStack_filter, hfs, bytesOnStack_filter, hint]

/--
Two arrays on the stack around one that is not, with extents that depend on a block size. The extent
of the other array has no value.
-/
def blockedArrays : List GridFunction :=
  [.declare "a" (.array true) [.space "x", .space "y"] [.sym "b", .num 3],
    .declare "u" .dense [.space "x"] [.sym "timers"],
    { FunctionDecl.declare "c" (.array true) [] [] with elementType := .float64 }]

def blockedArguments : Arguments := .ofList [("b", .int 5), ("timers", .profiler 0)]

theorem stackFootprint_exact_blocked :
    (∀ f ∈ blockedArrays, f.isStackArray = true → ∀ extent ∈ f.shape,
      (extent.evaluate blockedArguments.int?).fits = true) ∧
    (stackFootprint blockedArrays blockedArguments).value = some 68 ∧
    (∃ bytes, List.Forall₂ (TakesBytes blockedArguments.int?)
      (blockedArrays.filter (·.isStackArray)) bytes ∧ bytes.sum = 68) ∧
    stackFootprint (blockedArrays.filter (·.isStackArray)) (.ofList [("b", .int 5)]) =
      pure (some 68) := by
  have hfits : ∀ f ∈ blockedArrays, f.isStackArray = true → ∀ extent ∈ f.shape,
      (extent.evaluate blockedArguments.int?).fits = true := by decide +kernel
  have hvalue : (stackFootprint blockedArrays blockedArguments).value = some 68 := by
    decide +kernel
  obtain ⟨footprint, hanswer, hexact, hsame⟩ :=
    stackFootprint_exact blockedArrays blockedArguments hfits
  obtain rfl : footprint = some 68 := (Checked.eq_pure_iff.1 hanswer).2 ▸ hvalue
  obtain ⟨bytes, htake, -, hsum⟩ := (hexact 68).1 rfl
  refine ⟨hfits, hvalue, ⟨bytes, htake, hsum⟩, hsame _ _ (List.filter_filter ..) ?_⟩
  intro name i
  unfold blockedArguments
  rw [OrdMap.find?_ofList_iff (by decide), OrdMap.find?_ofList_iff (by decide)]
  simp

end Stencil.Tuning
