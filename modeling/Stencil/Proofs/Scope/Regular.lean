import Stencil.Proofs.Scope.Uniform

/-!
This module contains the dependences between regular accesses, whose index along each dimension is a
multiple of the dimension plus a constant. The order of two accesses is that of their indices. It is
the order of the points at which they are to the same element if the multiple along the first
dimension in which the points differ is positive, and the opposite order if it is negative.
-/

namespace Stencil

namespace Expr

/-- The numbers `c` and `k`, if the index `e` is `c * d + k`. -/
def line? (d : Dimension) (e : Expr) : Option (Int × Int) :=
  (Affine.ofExpr e).value.bind fun form =>
    if form.symbols.all (· == d.name) then
      (Fraction.toInt? (form.coeff d.name)).bind fun c =>
        (Fraction.toInt? form.constant).map fun k => (c, k)
    else
      none

theorem line?_eq_some {d : Dimension} {e : Expr} {c k : Int} (h : e.line? d = some (c, k)) :
    ∃ form, (Affine.ofExpr e).value = some form ∧ form.constant = k ∧
      ∀ s, form.coeff s = if d.name = s then (c : Rat) else 0 := by
  unfold line? at h
  obtain ⟨form, hform, h⟩ := Option.bind_eq_some_iff.1 h
  split at h
  · next hall =>
    obtain ⟨c', hc, h⟩ := Option.bind_eq_some_iff.1 h
    obtain ⟨k', hk, h⟩ := Option.map_eq_some_iff.1 h
    obtain ⟨rfl, rfl⟩ := Prod.mk.inj h
    refine ⟨form, hform, Fraction.toInt?_eq_some_iff.1 hk, ?_⟩
    intro s
    split
    · next hs => rw [← hs, Fraction.toInt?_eq_some_iff.1 hc]
    · next hs =>
      rw [Affine.coeff_eq_zero_iff (Affine.reduced_ofExpr e hform), OrdMap.find?_eq_none_iff]
      intro hmem
      exact hs (beq_iff_eq.1 (List.all_eq_true.1 hall s hmem)).symm
  · cases h

theorem isSome_ofExpr_of_line? {d : Dimension} {e : Expr} {l : Int × Int}
    (h : e.line? d = some l) : (Affine.ofExpr e).value.isSome = true := by
  obtain ⟨form, hform, -⟩ := line?_eq_some h
  rw [hform]
  rfl

theorem toInt?_difference_of_line? {d : Dimension} {x y : Expr} {c c' k l : Int}
    (hx : x.line? d = some (c, k)) (hy : y.line? d = some (c', l)) :
    (x.difference y).value.toInt? = if c = c' then some (k - l) else none := by
  obtain ⟨a, ha, hak, hacoeff⟩ := line?_eq_some hx
  obtain ⟨b, hb, hbl, hbcoeff⟩ := line?_eq_some hy
  have hconstant : (a.sub b).value.isConstant = true ↔ c = c' := by
    rw [Affine.isConstant_iff_coeff (Affine.reduced_sub (Affine.reduced_ofExpr x ha) b)]
    simp only [Affine.coeff_sub, hacoeff, hbcoeff]
    constructor
    · intro hzero
      have hd := hzero d.name
      rw [if_pos rfl, if_pos rfl, sub_eq_zero] at hd
      exact_mod_cast hd
    · rintro rfl s
      exact sub_self _
  rw [toInt?_difference_of_affine ha hb]
  unfold Affine.toInt? Affine.toConstant?
  by_cases hc : c = c'
  · rw [if_pos (hconstant.2 hc), if_pos hc, Option.bind_some, Fraction.toInt?_eq_some_iff,
      Affine.constant_sub, hak, hbl]
    push_cast
    rfl
  · rw [if_neg (mt hconstant.1 hc), if_neg hc]
    rfl

def scale (d : Dimension) (e : Expr) : Int := ((e.line? d).getD (0, 0)).1

def valueAlong (p : Point) (d : Dimension) (e : Expr) : Int :=
  e.scale d * p d + ((e.line? d).getD (0, 0)).2

theorem scale_eq {d : Dimension} {e : Expr} {c k : Int} (h : e.line? d = some (c, k)) :
    e.scale d = c := by
  rw [scale, h]
  rfl

theorem valueAlong_eq {d : Dimension} {e : Expr} {c k : Int} (h : e.line? d = some (c, k))
    (p : Point) : e.valueAlong p d = c * p d + k := by
  rw [valueAlong, scale_eq h, h]
  rfl

theorem denote_of_line? {K : Type} [Field K] [DecidableEq K] [CharZero K] (I : Interpretation K)
    {ρ : String → K} {p : Point} {d : Dimension} {e : Expr} {l : Int × Int}
    (h : e.line? d = some l) (hfits : (Affine.ofExpr e).fits = true) (hρ : ρ d.name = p d) :
    e.denote I ρ = e.valueAlong p d := by
  obtain ⟨form, hform, hconstant, hcoeff⟩ := line?_eq_some h
  have hsymbols : ∀ s ∈ form.symbols, s ∈ insert d.name form.symbols.toFinset := by
    intro s hs
    exact Finset.mem_insert_of_mem (List.mem_toFinset.2 hs)
  rw [Affine.denote_ofExpr I ρ e hfits hform, Affine.denote_eq_sum ρ form hsymbols,
    valueAlong_eq h, hconstant, Finset.sum_eq_single d.name]
  · rw [hcoeff, if_pos rfl, hρ]
    push_cast
    ring
  · intro s _ hs
    rw [hcoeff, if_neg hs.symm, Rat.cast_zero, zero_mul]
  · exact fun hnot => absurd (Finset.mem_insert_self ..) hnot

end Expr

namespace TimedAccess

theorem toInt?_difference_of_line? {d : Dimension} {x y : Expr} {c c' k l : Int}
    (hx : x.line? d = some (c, k)) (hy : y.line? d = some (c', l)) (dir : Direction) :
    (difference x y dir).value.toInt? = if c = c' then some (dir.signed (k - l)) else none := by
  cases dir with
  | forward => exact Expr.toInt?_difference_of_line? hx hy
  | backward =>
    rw [difference, Expr.toInt?_difference_of_line? hy hx, Direction.signed, neg_sub]
    simp only [eq_comm]

end TimedAccess

theorem Direction.signed_mul (dir : Direction) (c i : Int) :
    dir.signed (c * i) = c * dir.signed i := by
  cases dir with
  | forward => rfl
  | backward => exact (mul_neg c i).symm

namespace OffsetVector

def Regular (ds : List Dimension) (v : OffsetVector) : Prop :=
  List.Forall₂ (fun d e => ∃ l, Expr.line? d e = some l ∧ l.1 ≠ 0) ds v

instance (ds : List Dimension) (v : OffsetVector) : Decidable (Regular ds v) :=
  decidable_of_iff (List.Forall₂ (fun d e => ((Expr.line? d e).any (·.1 ≠ 0)) = true) ds v) (by
    simp only [Regular, Option.any_eq_true, decide_eq_true_eq])

def scales (ds : List Dimension) (v : OffsetVector) : List Int := List.zipWith Expr.scale ds v

def element (p : Point) (ds : List Dimension) (v : OffsetVector) : List Int :=
  List.zipWith (Expr.valueAlong p) ds v

/-- The multiple of the first dimension in which two points differ. -/
def leadingScale (p q : Point) : List Dimension → OffsetVector → Int
  | d :: ds, e :: es => if p d = q d then leadingScale p q ds es else e.scale d
  | _, _ => 0

theorem Regular.reversible {ds : List Dimension} {xs ys : OffsetVector} (hx : Regular ds xs)
    (hy : Regular ds ys) : List.Forall₂ Expr.Reversible xs ys := by
  induction hx generalizing ys with
  | nil =>
    cases hy
    exact .nil
  | cons hx _ ih =>
    cases hy with
    | cons hy hys =>
      obtain ⟨_, hl, -⟩ := hx
      obtain ⟨_, hl', -⟩ := hy
      refine .cons (.of_affine ?_ ?_) (ih hys)
      · exact Expr.isSome_ofExpr_of_line? hl
      · exact Expr.isSome_ofExpr_of_line? hl'

theorem Regular.map_denote {K : Type} [Field K] [DecidableEq K] [CharZero K] (I : Interpretation K)
    {ρ : String → K} {p : Point} {ds : List Dimension} {v : OffsetVector} (h : Regular ds v)
    (hfits : ∀ e ∈ v, (Affine.ofExpr e).fits = true) (hρ : ∀ d ∈ ds, ρ d.name = p d) :
    v.map (·.denote I ρ) = (element p ds v).map Int.cast := by
  unfold element
  induction h with
  | nil => rfl
  | cons he _ ih =>
    rw [List.forall_mem_cons] at hfits hρ
    obtain ⟨l, hl, -⟩ := he
    rw [List.map_cons, List.zipWith_cons_cons, List.map_cons, ih hfits.2 hρ.2,
      Expr.denote_of_line? I hl hfits.1 hρ.1]

end OffsetVector

namespace TimedAccess

open OffsetVector (Regular scales element leadingScale sign?)

variable {ds : List Dimension} {dirs : List Direction} {xs ys : List Expr} {p q : Point}

theorem sign?_offsets_of_scales_ne (hlength : ds.length = dirs.length) (hx : Regular ds xs)
    (hy : Regular ds ys) (hscales : scales ds xs ≠ scales ds ys) :
    sign? (offsets dirs xs ys) = none := by
  unfold scales at hscales
  induction hx generalizing dirs ys with
  | nil =>
    cases hy
    exact absurd rfl hscales
  | @cons d x ds xs hx _ ih =>
    cases hy with
    | @cons _ y _ ys hy hys =>
      cases dirs with
      | nil => cases hlength
      | cons dir dirs =>
        obtain ⟨⟨c, k⟩, hk, -⟩ := hx
        obtain ⟨⟨c', l⟩, hl, -⟩ := hy
        rw [List.zipWith_cons_cons, List.zipWith_cons_cons, Expr.scale_eq hk, Expr.scale_eq hl,
          Ne, List.cons.injEq, not_and] at hscales
        rw [offsets, OffsetVector.sign?_cons, toInt?_difference_of_line? hk hl]
        by_cases hc : c = c'
        · rw [ih (Nat.succ.inj hlength) hys (hscales hc)]
          simp
        · rw [if_neg hc]
          rfl

theorem sign?_offsets_of_element_eq (hlength : ds.length = dirs.length) (hx : Regular ds xs)
    (hy : Regular ds ys) (hscales : scales ds xs = scales ds ys)
    (helement : element p ds xs = element q ds ys) :
    ∃ o, sign? (offsets dirs xs ys) = some o ∧
      (Point.coordinates (ds.zip dirs) p < Point.coordinates (ds.zip dirs) q →
        o = if 0 < leadingScale p q ds xs then .gt else .lt) := by
  unfold scales at hscales
  unfold element at helement
  unfold Point.coordinates
  induction hx generalizing dirs ys with
  | nil =>
    refine ⟨.eq, ?_, ?_⟩
    · cases dirs <;> rfl
    · intro hlt
      cases hlt
  | @cons d x ds xs hx _ ih =>
    cases hy with
    | @cons _ y _ ys hy hys =>
      cases dirs with
      | nil => cases hlength
      | cons dir dirs =>
        obtain ⟨⟨c, k⟩, hk, hc⟩ := hx
        obtain ⟨⟨c', l⟩, hl, -⟩ := hy
        rw [List.zipWith_cons_cons, List.zipWith_cons_cons, List.cons.injEq, Expr.scale_eq hk,
          Expr.scale_eq hl] at hscales
        rw [List.zipWith_cons_cons, List.zipWith_cons_cons, List.cons.injEq, Expr.valueAlong_eq hk,
          Expr.valueAlong_eq hl] at helement
        obtain ⟨rfl, hscales⟩ := hscales
        obtain ⟨hvalue, helement⟩ := helement
        obtain ⟨o, ho, hlast⟩ := ih (Nat.succ.inj hlength) hys hscales helement
        -- Along `d`, the indices are as far apart as the points, times the multiple.
        have hfar : dir.signed (k - l) = c * (dir.signed (q d) - dir.signed (p d)) := by
          have hdistance : k - l = c * (q d - p d) := by linarith
          rw [hdistance, Direction.signed_mul, Direction.signed_sub]
        refine ⟨(compare (dir.signed (k - l)) 0).then o, ?_, ?_⟩
        · rw [offsets, OffsetVector.sign?_cons, toInt?_difference_of_line? hk hl, if_pos rfl, ho]
          rfl
        · intro hlt
          rw [List.zip_cons_cons, List.map_cons, List.map_cons, List.cons_lt_cons_iff] at hlt
          rw [hfar, leadingScale, Expr.scale_eq hk]
          rcases hlt with hlt | ⟨heq, hlt⟩
          · have hne : p d ≠ q d := fun heq => by simp [heq] at hlt
            rw [if_neg hne]
            rcases lt_or_gt_of_ne hc with hneg | hpos
            · rw [compare_lt_iff_lt.2 (mul_neg_of_neg_of_pos hneg (sub_pos.2 hlt)),
                if_neg hneg.not_gt]
              rfl
            · rw [compare_gt_iff_gt.2 (mul_pos hpos (sub_pos.2 hlt)), if_pos hpos]
              rfl
          · have heq : p d = q d := by
              cases dir with
              | forward => exact heq
              | backward => exact neg_inj.1 heq
            rw [if_pos heq, heq, sub_self, mul_zero, compare_eq_iff_eq.2 rfl, hlast hlt]
            rfl

def IsRegular (a : TimedAccess) : Prop := Regular a.dimensions a.indices

instance (a : TimedAccess) : Decidable a.IsRegular := by
  unfold IsRegular
  infer_instance

def scales (a : TimedAccess) : List Int := OffsetVector.scales a.dimensions a.indices

def element (p : Point) (a : TimedAccess) : List Int :=
  OffsetVector.element p a.dimensions a.indices

def leadingScale (a : TimedAccess) (p q : Point) : Int :=
  OffsetVector.leadingScale p q a.dimensions a.indices

end TimedAccess

namespace Scope

variable {eqs : List (Equation × IterationSpace)} {s : Scope} {f : GridFunction}
variable {a b : TimedAccess} {p q : Point}

theorem matched_of_isRegular (h : (ofEquations eqs).run.value = .ok s) (ha : a ∈ s.accesses f)
    (hb : b ∈ s.accesses f) (hregular : a.IsRegular) (hregular' : b.IsRegular)
    (haligned : a.Aligned b) : a.Matched b := by
  have hfunction : a.function = b.function := by
    rw [function_of_mem h ha, function_of_mem h hb]
  have hcovered : a.indices.length = a.directions.length := by
    rw [← length_directions h ha]
    exact (List.Forall₂.length_eq hregular).symm
  have hsame : OffsetVector.Regular a.dimensions b.indices := by
    rw [haligned.dimensions]
    exact hregular'
  exact ⟨haligned, hfunction, hcovered, OffsetVector.Regular.reversible hregular hsame⟩

theorem order_of_element_eq (h : (ofEquations eqs).run.value = .ok s) (ha : a ∈ s.accesses f)
    (hregular : a.IsRegular) (hregular' : b.IsRegular) (haligned : a.Aligned b)
    (hlt : a.coordinates p < a.coordinates q) (helement : a.element p = b.element q) :
    a.order b =
      if a.scales = b.scales then some (if 0 < a.leadingScale p q then .gt else .lt) else none := by
  have hlength := length_directions h ha
  unfold TimedAccess.IsRegular at hregular'
  unfold TimedAccess.element at helement
  unfold TimedAccess.scales
  rw [← haligned.dimensions] at hregular' helement ⊢
  unfold TimedAccess.order
  split
  · next hscales =>
    obtain ⟨o, ho, hlast⟩ :=
      TimedAccess.sign?_offsets_of_element_eq hlength hregular hregular' hscales helement
    rw [ho, hlast hlt]
    rfl
  · next hscales =>
    exact TimedAccess.sign?_offsets_of_scales_ne hlength hregular hregular' hscales

/--
The element that a regular access is to at a point consists of what its indices denote there. If two
such accesses to an array, one of them a write, are to the same element at points in order, there is
a dependence from the first one to the second one unless the indices have the same multiples of the
dimensions and that of the first dimension in which the points differ is negative. In that case
there is a dependence in the other direction only.
-/
theorem depends_iff_of_isRegular (eqs : List (Equation × IterationSpace)) (s : Scope)
    (f : GridFunction) (h : (ofEquations eqs).run.value = .ok s)
    (hregular : ∀ a ∈ s.accesses f, a.IsRegular) :
    (∀ a ∈ s.accesses f, (∀ e ∈ a.indices, (Affine.ofExpr e).fits = true) →
      ∀ (I : Interpretation Rat) (ρ : String → Rat) (p : Point),
        (∀ d ∈ f.dimensions, ρ d.name = p d) →
          a.indices.map (·.denote I ρ) = (a.element p).map Int.cast) ∧
    ∀ a ∈ s.accesses f, ∀ b ∈ s.accesses f, ∀ kind,
      DependenceKind.ofModes a.access.mode b.access.mode = some kind →
      ∀ p q : Point, a.coordinates p < a.coordinates q → a.element p = b.element q →
        (s.Depends kind a b ↔ (a.scales = b.scales → 0 < a.leadingScale p q)) ∧
        (¬ s.Depends kind a b → ∃ opposite, s.Depends opposite b a) := by
  constructor
  · intro a ha hfits I ρ p hρ
    rw [← function_of_mem h ha] at hρ
    exact (hregular a ha).map_denote I hfits hρ
  intro a ha b hb kind hkind p q hlt helement
  obtain ⟨-, -, hs⟩ := ofEquations_eq_ok h
  have haligned := aligned_of_ofModes h ha hb hkind
  have hmatched := matched_of_isRegular h ha hb (hregular a ha) (hregular b hb) haligned
  have horder := order_of_element_eq h ha (hregular a ha) (hregular b hb) haligned hlt helement
  by_cases hforward : a.scales = b.scales → 0 < a.leadingScale p q
  · have hdepends : s.Depends kind a b := by
      apply depends_of_order h ha hb hkind hmatched
      rw [horder]
      split
      · next hscales => exact .inr (by rw [if_pos (hforward hscales)])
      · exact .inl rfl
    exact ⟨iff_of_true hdepends hforward, fun hnot => absurd hdepends hnot⟩
  · obtain ⟨hscales, hbackward⟩ := Classical.not_imp.1 hforward
    rw [if_pos hscales, if_neg hbackward] at horder
    have hnot : ¬ s.Depends kind a b :=
      fun hdepends => order_ne_lt_of_depends hs hdepends hmatched horder
    refine ⟨iff_of_false hnot hforward, fun _ => ?_⟩
    obtain ⟨opposite, hopposite⟩ :
        ∃ opposite, DependenceKind.ofModes b.access.mode a.access.mode = some opposite := by
      cases hamode : a.access.mode <;> cases hbmode : b.access.mode <;>
        simp_all [DependenceKind.ofModes]
    refine ⟨opposite, depends_of_order h hb ha hopposite hmatched.symm (.inr ?_)⟩
    rw [hmatched.order_swap, horder]
    rfl

section Stretched

/-- `u[2 * x, -y] = u[2 * x - 2, 3 - y]`. -/
def stretchedUpdate : Equation :=
  ⟨.access plane [.mul [.num 2, .sym "x"], .mul [.num (-1), .sym "y"]],
    .access plane [.add [.num (-2), .mul [.num 2, .sym "x"]],
      .add [.num 3, .mul [.num (-1), .sym "y"]]], false⟩

def stretchedWrite : TimedAccess :=
  .ofReference skewSpace 0 false .write
    ⟨plane, [.mul [.num 2, .sym "x"], .mul [.num (-1), .sym "y"]]⟩

def stretchedRead : TimedAccess :=
  .ofReference skewSpace 0 false .read
    ⟨plane, [.add [.num (-2), .mul [.num 2, .sym "x"]],
      .add [.num 3, .mul [.num (-1), .sym "y"]]]⟩

/-- The element that is written at the origin is read at `(1, 3)`. -/
theorem depends_iff_of_isRegular_stretchedUpdate :
    ∃ s, (ofEquations [(stretchedUpdate, skewSpace)]).run.value = .ok s ∧
      (∀ a ∈ s.accesses plane, a.IsRegular) ∧ s.Depends .flow stretchedWrite stretchedRead := by
  have haccesses : (ofEquations [(stretchedUpdate, skewSpace)]).run.value.map
      (fun s => s.accesses plane) = .ok [stretchedWrite, stretchedRead] := by
    decide +kernel
  have hwrite : stretchedWrite.IsRegular := by decide +kernel
  have hread : stretchedRead.IsRegular := by decide +kernel
  cases hs : (ofEquations [(stretchedUpdate, skewSpace)]).run.value with
  | error e =>
    rw [hs] at haccesses
    cases haccesses
  | ok s =>
    rw [hs] at haccesses
    have hmem : s.accesses plane = [stretchedWrite, stretchedRead] := Except.ok.inj haccesses
    have hregular : ∀ a ∈ s.accesses plane, a.IsRegular := by
      rw [hmem]
      simp [hwrite, hread]
    refine ⟨s, rfl, hregular, ?_⟩
    apply ((depends_iff_of_isRegular _ s plane hs hregular).2 stretchedWrite (by simp [hmem])
      stretchedRead (by simp [hmem]) .flow rfl 0 (fun d => if d = .space "x" then 1 else 3)
      (by decide +kernel) (by decide +kernel)).1.2
    decide +kernel

end Stretched

section Reversed

/-- `u[-x] = u[-x - 1]`. -/
def reversedUpdate : Equation :=
  ⟨.access (.line "u") [.mul [.num (-1), .sym "x"]],
    .access (.line "u") [.add [.num (-1), .mul [.num (-1), .sym "x"]]], false⟩

def reversedSpace : IterationSpace := .ofDirections (.ofList [(.space "x", .forward)])

def reversedWrite : TimedAccess :=
  .ofReference reversedSpace 0 false .write ⟨.line "u", [.mul [.num (-1), .sym "x"]]⟩

def reversedRead : TimedAccess :=
  .ofReference reversedSpace 0 false .read
    ⟨.line "u", [.add [.num (-1), .mul [.num (-1), .sym "x"]]]⟩

/-- Each element is read before it is written, but there is no dependence in this direction. -/
theorem not_depends_reversedUpdate :
    (∀ a ∈ [reversedWrite, reversedRead], a.IsRegular) ∧
      reversedRead.coordinates 0 < reversedRead.coordinates 1 ∧
      reversedRead.element 0 = reversedWrite.element 1 ∧
      ∃ s, (ofEquations [(reversedUpdate, reversedSpace)]).run.value = .ok s ∧
        s.accesses (.line "u") = [reversedWrite, reversedRead] ∧
        ¬ s.Depends .anti reversedRead reversedWrite := by
  have hresult : (ofEquations [(reversedUpdate, reversedSpace)]).run.value.map
      (fun s => (s.accesses (.line "u"), s.dependences.map (·.kind))) =
        .ok ([reversedWrite, reversedRead], [.flow]) := by
    decide +kernel
  refine ⟨by decide +kernel, by decide +kernel, by decide +kernel, ?_⟩
  cases hs : (ofEquations [(reversedUpdate, reversedSpace)]).run.value with
  | error e =>
    rw [hs] at hresult
    cases hresult
  | ok s =>
    rw [hs] at hresult
    obtain ⟨haccesses, hkinds⟩ := Prod.mk.inj (Except.ok.inj hresult)
    refine ⟨s, rfl, haccesses, ?_⟩
    rintro ⟨d, hd, hkind, -⟩
    have hmem := List.mem_map_of_mem (f := (·.kind)) hd
    rw [hkinds, hkind] at hmem
    simp at hmem

end Reversed

end Scope

end Stencil
