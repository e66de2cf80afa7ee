import Stencil.Proofs.Body
import Stencil.Proofs.Fusion.Partition

/-!
This module contains the order of scalars in fused clusters. Fusion looks at arrays only, so an
equation may be moved before the definition of a scalar that it uses. This happens to equations
without guards that can join an equation before the definition, in a space other than that of the
definition. In programs without such equations scalars are defined before they are used.
-/

namespace Stencil

namespace Equation

def Defines (eq : Equation) (s : String) : Prop := eq.lhs = .sym s

instance (eq : Equation) (s : String) : Decidable (eq.Defines s) := by
  unfold Defines
  infer_instance

def Involves (eq : Equation) (s : String) : Prop := eq.Defines s ∨ s ∈ eq.usedSymbols

instance (eq : Equation) (s : String) : Decidable (eq.Involves s) := by
  unfold Involves
  infer_instance

end Equation

/--
Fusion can move `b` from behind `a` to one of the equations before `a`: nothing that it looks at
keeps `b` behind `a`, and `b` does not fit in with `a` itself.
-/
structure LoweredEquation.HoistableAbove (b a : LoweredEquation) (before : List LoweredEquation) :
    Prop where
  unguarded : b.guards.isEmpty = true
  unrelated : a.Unrelated b
  apart : a.guards.isEmpty = true → a.iterationSpace ≠ b.iterationSpace
  target : ∃ x ∈ before, x.guards.isEmpty = true ∧ x.iterationSpace = b.iterationSpace

namespace Cluster

theorem apart_of_pass {earlier c : Cluster} (h : (judge earlier c).run.value = .ok .pass)
    (hguards : earlier.guards.isEmpty = true) : earlier.iterationSpace ≠ c.iterationSpace := by
  intro hspace
  obtain ⟨s, hs, hcrossing⟩ := crossing_of_pass h
  have hnone {ds : List Dependence} (hds : ds ⊆ s.dependences) {d : Dependence} :
      d ∉ crossing earlier.equations.length ds := by
    intro hd
    obtain ⟨hmem, hsides⟩ := mem_crossing.1 hd
    apply List.eq_nil_iff_forall_not_mem.1 hcrossing d
    exact mem_crossing.2 ⟨hds hmem, hsides⟩
  have hanti : s.anti ⊆ s.dependences := by
    intro d hd
    exact List.mem_append_left _ (List.mem_append_right _ hd)
  have hflow : s.flow ⊆ s.dependences := by
    intro d hd
    exact List.mem_append_left _ (List.mem_append_left _ hd)
  have hfusible : Fusible earlier c s :=
    ⟨hguards, hspace, fun d hd => absurd hd (hnone hanti), fun d hd => absurd hd (hnone hflow)⟩
  rcases judge_cases hs with ⟨-, hfuse⟩ | ⟨hnot, -⟩ | ⟨hnot, -⟩
  · rw [h] at hfuse
    cases hfuse
  · exact hnot hfusible
  · exact hnot hfusible

structure Hoisted (sent : List (LoweredEquation × Nat)) : Prop where
  opened : ∀ (i : Nat) a, sent[i]? = some a → ∀ n < a.2, ∃ x ∈ sent.take i, x.2 = n
  hoistable : ∀ (i j : Nat) a b, i < j → sent[i]? = some a → sent[j]? = some b → b.2 < a.2 →
    b.1.HoistableAbove a.1 ((sent.take i).map (·.1))

namespace Distributed

variable {sent : List (LoweredEquation × Nat)} {clusters clusters' : List Cluster}
variable {e : LoweredEquation} {n : Nat}

theorem opened (h : Distributed sent clusters) (hadded : Added (ofLowered e) clusters n clusters')
    {m : Nat} (hm : m < n) : ∃ x ∈ sent, x.2 = m := by
  have hlt : m < clusters.length := by
    cases hadded with
    | alone => exact hm
    | @joined before later earlier =>
      rw [List.length_append, List.length_cons]
      omega
  obtain ⟨x, hx⟩ := List.exists_mem_of_ne_nil _
    (h.gathers m _ (List.getElem?_eq_getElem hlt)).nonempty
  exact ⟨(x, m), mem_sentTo.1 hx, rfl⟩

theorem hoistableAbove {before later : List Cluster} {earlier : Cluster}
    (h : Distributed sent (before ++ earlier :: later)) (hguards : e.guards.isEmpty = true)
    (hfuse : (earlier.judge (ofLowered e)).run.value = .ok .fuse)
    (hpass : ∀ d ∈ later, (d.judge (ofLowered e)).run.value = .ok .pass)
    {a x : LoweredEquation × Nat} (ha : a ∈ sent) (hlt : before.length < a.2) (hx : x ∈ sent)
    (hxn : x.2 = before.length) {first : List LoweredEquation} (hfirst : x.1 ∈ first) :
    e.HoistableAbove a.1 first := by
  obtain ⟨c, hc, hgathers, hmem⟩ := h.exists_cluster ha
  have hlater : c ∈ later := by
    rw [List.getElem?_append_right hlt.le, List.getElem?_cons, if_neg (by omega)] at hc
    exact List.mem_of_getElem? hc
  obtain ⟨c', hc', hgathers', hmem'⟩ := h.exists_cluster hx
  obtain rfl : earlier = c' := by
    rw [hxn, List.getElem?_append_right (Nat.le_refl _), Nat.sub_self] at hc'
    exact Option.some.inj hc'
  obtain ⟨s, -, hfusible⟩ := fusible_of_fuse hfuse
  constructor
  case unguarded => exact hguards
  case unrelated => exact unrelated_of_pass (hgathers.mem_executed hmem) (hpass c hlater)
  case apart =>
    rw [hgathers.guards a.1 hmem, hgathers.iterationSpace a.1 hmem]
    exact apart_of_pass (hpass c hlater)
  case target =>
    refine ⟨x.1, hfirst, ?_, ?_⟩
    · rw [hgathers'.guards x.1 hmem']
      exact hfusible.unguarded
    · rw [hgathers'.iterationSpace x.1 hmem']
      exact hfusible.iterationSpace

theorem hoisted_concat (h : Distributed sent clusters) (hhoisted : Hoisted sent)
    (hadded : Added (ofLowered e) clusters n clusters') : Hoisted (sent ++ [(e, n)]) := by
  have hleft {i : Nat} {a : LoweredEquation × Nat} (hi : i < sent.length)
      (ha : (sent ++ [(e, n)])[i]? = some a) :
      sent[i]? = some a ∧ (sent ++ [(e, n)]).take i = sent.take i := by
    rw [List.getElem?_append_left hi] at ha
    exact ⟨ha, List.take_append_of_le_length hi.le⟩
  have hcases {i : Nat} {a : LoweredEquation × Nat} (ha : (sent ++ [(e, n)])[i]? = some a) :
      sent[i]? = some a ∧ (sent ++ [(e, n)]).take i = sent.take i ∨
        a = (e, n) ∧ (sent ++ [(e, n)]).take i = sent := by
    rcases Nat.lt_or_ge i sent.length with hi | hi
    · exact .inl (hleft hi ha)
    · rw [List.getElem?_append_right hi] at ha
      obtain ⟨hlt, heq⟩ := List.getElem?_eq_some_iff.1 ha
      obtain rfl : i = sent.length := by
        rw [List.length_singleton] at hlt
        omega
      refine .inr ⟨?_, List.take_left⟩
      rw [← heq]
      simp
  constructor
  case opened =>
    intro i a ha m hm
    rcases hcases ha with ⟨ha, htake⟩ | ⟨rfl, htake⟩
    · rw [htake]
      exact hhoisted.opened i a ha m hm
    · rw [htake]
      exact h.opened hadded hm
  case hoistable =>
    intro i j a b hij ha hb hlt
    have hi : i < sent.length := by
      have hj := (List.getElem?_eq_some_iff.1 hb).1
      rw [List.length_append, List.length_singleton] at hj
      omega
    obtain ⟨ha, htake⟩ := hleft hi ha
    rw [htake]
    rcases hcases hb with ⟨hb, -⟩ | ⟨rfl, -⟩
    · exact hhoisted.hoistable i j a b hij ha hb hlt
    · have hmem := List.mem_of_getElem? ha
      obtain ⟨x, hx, hxn⟩ := hhoisted.opened i a ha n hlt
      cases hadded with
      | alone => exact absurd (h.lt a hmem) (Nat.lt_asymm hlt)
      | joined hguards hfuse hpass =>
        exact h.hoistableAbove hguards hfuse hpass hmem hlt (List.mem_of_mem_take hx) hxn
          (List.mem_map_of_mem hx)

end Distributed

namespace Partition

variable {es : List LoweredEquation} {positions : List Nat} {clusters : List Cluster}
variable {i j : Nat} {a b : LoweredEquation × Nat}

def Single (sent : List (LoweredEquation × Nat)) (i : Nat) (a : LoweredEquation × Nat) : Prop :=
  sent[i]? = some a ∧ ∀ (k : Nat) x, sent[k]? = some x → x.1.equation = a.1.equation → k = i

theorem position_of_mem (h : Partition es positions clusters)
    (ha : Single (es.zip positions) i a) {n : Nat} {c : Cluster} (hc : clusters[n]? = some c)
    (hmem : a.1.equation ∈ c.equations) : n = a.2 := by
  obtain ⟨e, he, heq⟩ := h.isImage n c hc _ hmem
  obtain ⟨k, hk⟩ := List.mem_iff_getElem?.1 he
  obtain rfl := ha.2 k _ hk heq
  exact congrArg Prod.snd (Option.some.inj (hk.symm.trans ha.1))

theorem idxOf_eq (ha : Single (es.zip positions) i a) :
    ((es.map (·.equation)).zip positions).idxOf (a.1.equation, a.2) = i := by
  have hmap : (es.map (·.equation)).zip positions =
      (es.zip positions).map fun x => (x.1.equation, x.2) := by
    rw [List.zip_map_left]
    rfl
  have hmem : (a.1.equation, a.2) ∈ (es.map (·.equation)).zip positions := by
    rw [hmap]
    exact List.mem_map_of_mem (List.mem_of_getElem? ha.1)
  have hget := List.getElem?_idxOf hmem
  rw [hmap, List.getElem?_map, Option.map_eq_some_iff] at hget
  obtain ⟨x, hx, heq⟩ := hget
  rw [hmap]
  exact ha.2 _ x hx (Prod.mk.inj heq).1

theorem lt_of_pair_sublist (h : Partition es positions clusters)
    (ha : Single (es.zip positions) i a) (hb : Single (es.zip positions) j b)
    (hpair : [a.1.equation, b.1.equation].Sublist (clusters.flatMap (·.equations))) :
    a.2 < b.2 ∨ a.2 = b.2 ∧ i < j := by
  rcases pair_sublist_flatMap.1 hpair with ⟨c, hc, hpair⟩ | ⟨c, d, hcd, hac, hbd⟩
  · obtain ⟨n, hn⟩ := List.mem_iff_getElem?.1 hc
    obtain rfl := h.position_of_mem ha hn (hpair.subset (List.mem_cons_self ..))
    have hsame := h.position_of_mem hb hn (hpair.subset (by simp))
    have horder := List.pairwise_iff_forall_sublist.1 (h.inOrder _ c hn) hpair
    rw [idxOf_eq ha, hsame, idxOf_eq hb] at horder
    exact .inr ⟨hsame, horder⟩
  · have hpositions : clusters.Pairwise fun c d => a.1.equation ∈ c.equations →
        b.1.equation ∈ d.equations → a.2 < b.2 := by
      rw [List.pairwise_iff_getElem]
      intro n m hn hm hnm hac hbd
      rw [← h.position_of_mem ha (List.getElem?_eq_getElem hn) hac,
        ← h.position_of_mem hb (List.getElem?_eq_getElem hm) hbd]
      exact hnm
    exact .inl (List.pairwise_iff_forall_sublist.1 hpositions hcd hac hbd)

theorem mem_flatMap_iff (h : Partition es positions clusters) {eq : Equation} :
    eq ∈ clusters.flatMap (·.equations) ↔ ∃ a ∈ es.zip positions, a.1.equation = eq := by
  rw [List.mem_flatMap]
  constructor
  · rintro ⟨c, hc, hmem⟩
    obtain ⟨n, hn⟩ := List.mem_iff_getElem?.1 hc
    obtain ⟨e, he, heq⟩ := h.isImage n c hn eq hmem
    exact ⟨(e, n), he, heq⟩
  · rintro ⟨a, ha, rfl⟩
    obtain ⟨c, hc, hmem⟩ := h.isMember a.1 a.2 ha
    exact ⟨c, List.mem_of_getElem? hc, hmem⟩

end Partition

theorem exists_between {α : Type} {as : List α} {a b : α} (ha : a ∈ as) (hb : b ∈ as)
    (hne : a ≠ b) (hnot : ¬ [b, a].Sublist as) :
    ∃ before between after, as = before ++ a :: (between ++ b :: after) := by
  obtain ⟨before, rest, rfl⟩ := List.append_of_mem ha
  have hrest : b ∈ rest := by
    rcases List.mem_append.1 hb with hb | hb
    · exact absurd ((List.singleton_sublist.2 hb).append
        (List.singleton_sublist.2 (List.mem_cons_self ..))) hnot
    · exact (List.mem_cons.1 hb).resolve_left hne.symm
  obtain ⟨between, after, rfl⟩ := List.append_of_mem hrest
  exact ⟨before, between, after, rfl⟩

theorem pair_sublist_between {α : Type} (before after : List α) (a b : α) {between : List α}
    {x : α} (hx : x ∈ between) :
    [a, x].Sublist (before ++ a :: (between ++ b :: after)) ∧
      [x, b].Sublist (before ++ a :: (between ++ b :: after)) := by
  have hsingle := List.singleton_sublist.2 hx
  constructor
  · apply List.Sublist.trans _ (List.sublist_append_right before _)
    exact (hsingle.trans (List.sublist_append_left between _)).cons_cons a
  · apply List.Sublist.trans _ (List.sublist_append_right before _)
    apply List.Sublist.cons
    exact hsingle.append (List.singleton_sublist.2 (List.mem_cons_self ..))

/-- A scalar whose equations are distinct, and whose definitions stay where they are among them. -/
structure Settles (s : String) (sent : List (LoweredEquation × Nat)) : Prop where
  single : ∀ (i : Nat) a, sent[i]? = some a → a.1.equation.Involves s → Partition.Single sent i a
  inOrder : ∀ (i j : Nat) a b, i < j → sent[i]? = some a → sent[j]? = some b →
    a.1.equation.Involves s → b.1.equation.Involves s →
    a.1.equation.Defines s ∨ b.1.equation.Defines s → a.2 ≤ b.2

theorem Settles.exists_between {es : List LoweredEquation} {positions : List Nat}
    {clusters : List Cluster} {s : String} (hs : Settles s (es.zip positions))
    (h : Partition es positions clusters) {i j : Nat} {a b : LoweredEquation × Nat} (hij : i < j)
    (ha : (es.zip positions)[i]? = some a) (hb : (es.zip positions)[j]? = some b)
    (hdefines : a.1.equation.Defines s) (huses : s ∈ b.1.equation.usedSymbols)
    (hnone : ∀ (k : Nat) x, i < k → k < j → (es.zip positions)[k]? = some x →
      ¬ x.1.equation.Defines s) :
    ∃ before between after, clusters.flatMap (·.equations) =
        before ++ a.1.equation :: (between ++ b.1.equation :: after) ∧
      ∀ x ∈ between, ¬ x.Defines s := by
  have hasingle := hs.single i a ha (.inl hdefines)
  have hbsingle := hs.single j b hb (.inr huses)
  have hle := hs.inOrder i j a b hij ha hb (.inl hdefines) (.inr huses) (.inl hdefines)
  have hne : a.1.equation ≠ b.1.equation := by
    intro heq
    have := hbsingle.2 i a ha heq
    omega
  have hnot : ¬ [b.1.equation, a.1.equation].Sublist (clusters.flatMap (·.equations)) := by
    intro hpair
    have := h.lt_of_pair_sublist hbsingle hasingle hpair
    omega
  obtain ⟨before, between, after, hbody⟩ := Cluster.exists_between
    (h.mem_flatMap_iff.2 ⟨a, List.mem_of_getElem? ha, rfl⟩)
    (h.mem_flatMap_iff.2 ⟨b, List.mem_of_getElem? hb, rfl⟩) hne hnot
  refine ⟨before, between, after, hbody, ?_⟩
  intro x hx hxdefines
  obtain ⟨hfirst, hlast⟩ :=
    pair_sublist_between before after a.1.equation b.1.equation hx
  rw [← hbody] at hfirst hlast
  obtain ⟨c, hc, rfl⟩ := h.mem_flatMap_iff.1 (hlast.subset (List.mem_cons_self ..))
  obtain ⟨k, hk⟩ := List.mem_iff_getElem?.1 hc
  have hcsingle := hs.single k c hk (.inl hxdefines)
  have hafter := h.lt_of_pair_sublist hasingle hcsingle hfirst
  have hbefore := h.lt_of_pair_sublist hcsingle hbsingle hlast
  -- A definition outside of the two equations stays outside.
  rcases Nat.lt_trichotomy k i with hki | rfl | hik
  · have := hs.inOrder k i c a hki hk ha (.inl hxdefines) (.inl hdefines) (.inl hxdefines)
    omega
  · obtain rfl := Option.some.inj (ha.symm.trans hk)
    omega
  rcases Nat.lt_trichotomy k j with hkj | rfl | hjk
  · exact hnone k c hik hkj hk hxdefines
  · obtain rfl := Option.some.inj (hb.symm.trans hk)
    omega
  · have := hs.inOrder j k b c hjk hb hk (.inr huses) (.inl hxdefines) (.inr hxdefines)
    omega

theorem eq_of_nodup_filter {α : Type} {p : α → Bool} {as : List α} (h : (as.filter p).Nodup)
    {i j : Nat} {a : α} (hi : as[i]? = some a) (hj : as[j]? = some a) (ha : p a = true) :
    i = j := by
  have hpairwise := List.pairwise_iff_getElem.1 (List.pairwise_filter.1 h)
  have hnot {i j : Nat} (hi : as[i]? = some a) (hj : as[j]? = some a) : ¬ i < j := by
    intro hij
    obtain ⟨hilt, hieq⟩ := List.getElem?_eq_some_iff.1 hi
    obtain ⟨hjlt, hjeq⟩ := List.getElem?_eq_some_iff.1 hj
    have hne := hpairwise i j hilt hjlt hij
    rw [hieq, hjeq] at hne
    exact hne ha ha rfl
  have hij := hnot hi hj
  have hji := hnot hj hi
  omega

theorem getElem?_map_of_zip {es : List LoweredEquation} {positions : List Nat} {i : Nat}
    {a : LoweredEquation × Nat} (h : (es.zip positions)[i]? = some a) :
    (es.map (·.equation))[i]? = some a.1.equation := by
  rw [List.getElem?_map, (List.getElem?_zip_eq_some.1 h).1]
  rfl

theorem Hoisted.settles {es : List LoweredEquation} {positions : List Nat} {s : String}
    (h : Hoisted (es.zip positions)) (hlength : positions.length = es.length)
    (hdistinct : ((es.map (·.equation)).filter (·.Involves s)).Nodup)
    (hstays : ∀ (i j : Nat) a b, i < j → es[i]? = some a → es[j]? = some b →
      a.equation.Involves s → b.equation.Involves s →
      a.equation.Defines s ∨ b.equation.Defines s → ¬ b.HoistableAbove a (es.take i)) :
    Settles s (es.zip positions) where
  single i a ha hinvolves := by
    refine ⟨ha, ?_⟩
    intro k x hx heq
    apply eq_of_nodup_filter hdistinct _ (getElem?_map_of_zip ha) (decide_eq_true hinvolves)
    rw [← heq]
    exact getElem?_map_of_zip hx
  inOrder i j a b hij ha hb hainvolves hbinvolves hdefines := by
    rw [← Nat.not_lt]
    intro hlt
    have hhoistable := h.hoistable i j a b hij ha hb hlt
    rw [List.map_take, List.map_fst_zip hlength.ge] at hhoistable
    exact hstays i j a.1 b.1 hij (List.getElem?_zip_eq_some.1 ha).1
      (List.getElem?_zip_eq_some.1 hb).1 hainvolves hbinvolves hdefines hhoistable

/--
Clusters define a scalar before it is used, and not again in between, if this is so in the program,
the equations that involve the scalar are distinct, and none of them can be hoisted above another
one where one of the two defines the scalar.
-/
theorem defined_before_use {eqs : List Equation} {directions : OrdMap Dimension Direction}
    {clusters : List Cluster} {s : String}
    (h : (ofProgram true (Equation.lowerAll eqs directions).value).run.value = .ok clusters)
    (hdistinct : (eqs.filter (·.Involves s)).Nodup)
    (hstays : ∀ (i j : Nat) a b, i < j → (Equation.lowerAll eqs directions).value[i]? = some a →
      (Equation.lowerAll eqs directions).value[j]? = some b →
      a.equation.Involves s → b.equation.Involves s →
      a.equation.Defines s ∨ b.equation.Defines s →
      ¬ b.HoistableAbove a ((Equation.lowerAll eqs directions).value.take i)) :
    ∀ (i j : Nat) e e', i < j → eqs[i]? = some e → eqs[j]? = some e' → e.Defines s →
      s ∈ e'.usedSymbols →
      (∀ (k : Nat) x, i < k → k < j → eqs[k]? = some x → ¬ x.Defines s) →
      ∃ before between after,
        clusters.flatMap (·.equations) = before ++ e :: (between ++ e' :: after) ∧
        ∀ x ∈ between, ¬ x.Defines s := by
  obtain ⟨positions, -, hlength, hsent, hhoisted⟩ :=
    exists_destinations_of_step (P := Hoisted) ⟨by simp, by simp⟩
      (fun _ _ _ _ _ hsent hhoisted hadded => hsent.hoisted_concat hhoisted hadded) h
  have hpartition := hsent.partition hlength fun e he => Equation.dataSpace_of_mem_lowerAll he
  have hequations := Equation.map_equation_lowerAll eqs directions
  generalize (Equation.lowerAll eqs directions).value = es at *
  subst hequations
  have hsettles := hhoisted.settles hlength hdistinct hstays
  have hexists {k : Nat} {e : Equation} (he : (es.map (·.equation))[k]? = some e) :
      ∃ a, (es.zip positions)[k]? = some a ∧ a.1.equation = e := by
    rw [List.getElem?_map, Option.map_eq_some_iff] at he
    obtain ⟨x, hx, rfl⟩ := he
    obtain ⟨n, hn⟩ : ∃ n, positions[k]? = some n := by
      have hlt := (List.getElem?_eq_some_iff.1 hx).1
      exact ⟨_, List.getElem?_eq_getElem (by omega)⟩
    exact ⟨(x, n), List.getElem?_zip_eq_some.2 ⟨hx, hn⟩, rfl⟩
  intro i j e e' hij he he' hdefines huses hnone
  obtain ⟨a, ha, rfl⟩ := hexists he
  obtain ⟨b, hb, rfl⟩ := hexists he'
  apply hsettles.exists_between hpartition hij ha hb hdefines huses
  exact fun k x hik hkj hx => hnone k _ hik hkj (getElem?_map_of_zip hx)

/-- `s = v[x + 1]; w[x, y] = 2; t[x] = s; s = u[x]; r[x] = s`. -/
def redefined : List Equation :=
  [⟨.sym "s", .access (.line "v") [.add [.num 1, .sym "x"]], false⟩,
    ⟨.access (.declare "w" .dense [.space "x", .space "y"] [.num 8, .num 8]) [.sym "x", .sym "y"],
      .num 2, false⟩,
    ⟨.access (.line "t") [.sym "x"], .sym "s", false⟩,
    ⟨.sym "s", .access (.line "u") [.sym "x"], false⟩,
    ⟨.access (.line "r") [.sym "x"], .sym "s", false⟩]

/-- The equations that involve the scalar join each other, past an equation of another space. -/
theorem defined_before_use_redefined :
    ∃ clusters before between after,
      (ofProgram true (Equation.lowerAll redefined .empty).value).run.value = .ok clusters ∧
      (redefined.filter (·.Involves "s")).Nodup ∧
      clusters.flatMap (·.equations) =
        before ++ ⟨.sym "s", .access (.line "u") [.sym "x"], false⟩ ::
          (between ++ ⟨.access (.line "r") [.sym "x"], .sym "s", false⟩ :: after) ∧
      ∀ x ∈ between, ¬ x.Defines "s" := by
  have hresult : (ofProgram true (Equation.lowerAll redefined .empty).value).run.value.map
      List.length = .ok 2 := by
    decide +kernel
  have hdistinct : (redefined.filter (·.Involves "s")).Nodup := by decide +kernel
  have hspace : ∀ a ∈ (Equation.lowerAll redefined .empty).value,
      ∀ b ∈ (Equation.lowerAll redefined .empty).value, a.equation.Involves "s" →
        b.equation.Involves "s" →
        a.guards.isEmpty = true ∧ a.iterationSpace = b.iterationSpace := by
    decide +kernel
  cases hfuse : (ofProgram true (Equation.lowerAll redefined .empty).value).run.value with
  | error e =>
    rw [hfuse] at hresult
    cases hresult
  | ok clusters =>
    obtain ⟨before, between, after, hbody, hbetween⟩ :=
      defined_before_use (s := "s") hfuse hdistinct
        (by
          intro i j a b _ ha hb hainvolves hbinvolves _ hhoistable
          obtain ⟨hguards, hsame⟩ := hspace a (List.mem_of_getElem? ha) b (List.mem_of_getElem? hb)
            hainvolves hbinvolves
          exact hhoistable.apart hguards hsame)
        3 4 _ _ (by decide) rfl rfl rfl (by decide +kernel) (by omega)
    exact ⟨clusters, before, between, after, rfl, hdistinct, hbody, hbetween⟩

def lineFill : Equation := ⟨.access (.line "v") [.sym "x"], .num 1, false⟩

def constantScalar : Equation := ⟨.sym "s", .num 2, false⟩

def constantScalarUse : Equation := ⟨.access (.line "u") [.sym "x"], .sym "s", false⟩

def constantScalarProgram : List LoweredEquation :=
  (Equation.lowerAll [lineFill, constantScalar, constantScalarUse] .empty).value

/-- In `v[x] = 1; s = 2; u[x] = s` the last equation joins the first one. -/
theorem used_before_definition_constantScalar :
    constantScalar.Defines "s" ∧ "s" ∈ constantScalarUse.usedSymbols ∧
      ∃ clusters, (ofProgram true constantScalarProgram).run.value = .ok clusters ∧
        clusters.flatMap (·.equations) = [lineFill, constantScalarUse, constantScalar] ∧
        ¬ [constantScalar, constantScalarUse].Sublist (clusters.flatMap (·.equations)) := by
  have hresult : (ofProgram true constantScalarProgram).run.value.map
      (fun clusters => clusters.flatMap (·.equations)) =
        .ok [lineFill, constantScalarUse, constantScalar] := by
    decide +kernel
  refine ⟨rfl, by decide +kernel, ?_⟩
  cases hfuse : (ofProgram true constantScalarProgram).run.value with
  | error e =>
    rw [hfuse] at hresult
    cases hresult
  | ok clusters =>
    rw [hfuse] at hresult
    have hbody : clusters.flatMap (·.equations) = [lineFill, constantScalarUse, constantScalar] :=
      Except.ok.inj hresult
    refine ⟨clusters, rfl, hbody, ?_⟩
    rw [hbody]
    decide +kernel

end Cluster

end Stencil
