import Stencil.Cluster
import Stencil.Proofs.DataSpace

/-!
This module contains the laws of the union of data spaces. A union records the least ranges around
those of its members, so neither the order of the members nor the way in which they are grouped
counts. Therefore it does not matter for what clusters touch in which order they are put together.
-/

namespace Stencil

namespace DataSpace

theorem isHull_ranges_union (ss : List DataSpace) (f : GridFunction) (d : Dimension) :
    Bounds.IsHull {b | ∃ s ∈ ss, b ∈ s.ranges f d} ((union ss).bounds? f d) := by
  have hempty : Bounds.IsHull ∅ (empty.bounds? f d) := rfl
  have hunion := isHull_foldl (fun t (_ : t ∈ ss) s T hs => isHull_join hs t) hempty
  rwa [Set.empty_union] at hunion

theorem isHull_find?_union {ss : List DataSpace} (hss : ∀ s ∈ ss, s.WellFormed)
    (f : GridFunction) (d : Dimension) :
    Bounds.IsHull {b | ∃ s ∈ ss, s.find? f d = some ⟨d, b⟩} ((union ss).bounds? f d) := by
  have hset : {b | ∃ s ∈ ss, s.find? f d = some ⟨d, b⟩} = {b | ∃ s ∈ ss, b ∈ s.ranges f d} := by
    ext b
    refine exists_congr fun s => and_congr_right fun hs => ?_
    rw [(hss s hs).ranges_eq, (hss s hs).find?_eq, Set.mem_ofPred_eq, Option.map_eq_some_iff]
    simp
  rw [hset]
  exact isHull_ranges_union ss f d

theorem union_eq {ss : List DataSpace} {t : DataSpace} (ht : t.WellFormed)
    (h : ∀ f d, Bounds.IsHull {b | ∃ s ∈ ss, b ∈ s.ranges f d} (t.bounds? f d)) :
    union ss = t := by
  apply (wellFormed_union ss).ext ht
  intro f d
  exact (isHull_ranges_union ss f d).unique (h f d)

theorem union_congr {ss ts : List DataSpace} (h : ∀ s, s ∈ ss ↔ s ∈ ts) : union ss = union ts := by
  apply union_eq (wellFormed_union ts)
  intro f d
  simp only [h]
  exact isHull_ranges_union ts f d

theorem union_map_union (sss : List (List DataSpace)) :
    union (sss.map union) = union sss.flatten := by
  symm
  apply union_eq (wellFormed_union _)
  intro f d
  have hgroups := isHull_union (fun ss (_ : ss ∈ sss) => wellFormed_union ss) fun ss _ =>
    isHull_ranges_union ss f d
  have hset : {b | ∃ s ∈ sss.flatten, b ∈ s.ranges f d} =
      {b | ∃ ss ∈ sss, b ∈ {b | ∃ s ∈ ss, b ∈ s.ranges f d}} := by
    ext b
    simp only [List.mem_flatten, Set.mem_ofPred_eq]
    grind
  rwa [hset]

theorem union_pair (ss ts : List DataSpace) : union [union ss, union ts] = union (ss ++ ts) := by
  simpa using union_map_union [ss, ts]

theorem WellFormed.union_singleton {s : DataSpace} (hs : s.WellFormed) : union [s] = s := by
  apply union_eq hs
  intro f d
  simpa [hs.ranges_eq] using s.isHull_bounds? f d

theorem union_cons_union (ss ts : List DataSpace) :
    union (union ss :: ts) = union (ss ++ ts) :=
  calc union (union ss :: ts)
    _ = union [union [union ss], union ts] := (union_pair [union ss] ts).symm
    _ = union [union ss, union ts] := by rw [(wellFormed_union ss).union_singleton]
    _ = union (ss ++ ts) := union_pair ss ts

section Laws

variable (s t u : DataSpace)

theorem union_comm : union [s, t] = union [t, s] := by
  apply union_congr
  simp [or_comm]

theorem union_assoc : union [union [s, t], u] = union [s, union [t, u]] :=
  calc union [union [s, t], u]
    _ = union [s, t, u] := union_cons_union [s, t] [u]
    _ = union [t, u, s] := union_congr (by grind)
    _ = union [union [t, u], s] := (union_cons_union [t, u] [s]).symm
    _ = union [s, union [t, u]] := union_comm _ _

variable {s}

theorem Recorded.union_self (hs : s.Recorded) : DataSpace.union [s, s] = s := by
  have hpair : DataSpace.union [s, s] = DataSpace.union [s] := by
    apply union_congr
    simp
  rw [hpair, hs.wellFormed.union_singleton]

end Laws

end DataSpace

namespace Cluster

inductive Grouping where
  | single (c : Cluster)
  | pair (left right : Grouping)

namespace Grouping

def clusters : Grouping → List Cluster
  | single c => [c]
  | pair l r => l.clusters ++ r.clusters

def squash : Grouping → Except ClusterError Cluster
  | single c => .ok c
  | pair l r => do (← l.squash).squash (← r.squash)

theorem squash_pair_eq_ok {l r : Grouping} {c : Cluster} :
    (pair l r).squash = .ok c ↔
      ∃ a b, l.squash = .ok a ∧ r.squash = .ok b ∧ a.iterationSpace = b.iterationSpace ∧
        c = a.absorb b := by
  rw [squash]
  cases l.squash with
  | error e => simp [bind, Except.bind]
  | ok a =>
    cases r.squash with
    | error e => simp [bind, Except.bind]
    | ok b =>
      simp only [bind, Except.bind, Cluster.squash]
      split <;> simp_all [eq_comm]

theorem exists_mem_clusters (g : Grouping) : ∃ c, c ∈ g.clusters := by
  induction g with
  | single c => exact ⟨c, List.mem_singleton_self c⟩
  | pair l r ihl _ =>
    obtain ⟨c, hc⟩ := ihl
    exact ⟨c, List.mem_append_left _ hc⟩

theorem iterationSpace_of_squash {g : Grouping} {c : Cluster} (h : g.squash = .ok c) :
    ∀ d ∈ g.clusters, d.iterationSpace = c.iterationSpace := by
  induction g generalizing c with
  | single d =>
    obtain rfl := Except.ok.inj h
    exact List.forall_mem_singleton.2 rfl
  | pair l r ihl ihr =>
    obtain ⟨a, b, ha, hb, hspace, rfl⟩ := squash_pair_eq_ok.1 h
    have hleft := ihl ha
    have hright := ihr hb
    rw [← hspace] at hright
    exact List.forall_mem_append.2 ⟨hleft, hright⟩

theorem exists_squash_iff {g : Grouping} :
    (∃ c, g.squash = .ok c) ↔
      ∀ c ∈ g.clusters, ∀ d ∈ g.clusters, c.iterationSpace = d.iterationSpace := by
  constructor
  · rintro ⟨e, he⟩ c hc d hd
    rw [iterationSpace_of_squash he c hc, iterationSpace_of_squash he d hd]
  · intro h
    induction g with
    | single c => exact ⟨c, rfl⟩
    | pair l r ihl ihr =>
      rw [clusters] at h
      obtain ⟨a, ha⟩ := ihl fun c hc d hd =>
        h c (List.mem_append_left _ hc) d (List.mem_append_left _ hd)
      obtain ⟨b, hb⟩ := ihr fun c hc d hd =>
        h c (List.mem_append_right _ hc) d (List.mem_append_right _ hd)
      obtain ⟨c, hc⟩ := l.exists_mem_clusters
      obtain ⟨d, hd⟩ := r.exists_mem_clusters
      have hspace : a.iterationSpace = b.iterationSpace := by
        rw [← iterationSpace_of_squash ha c hc, ← iterationSpace_of_squash hb d hd]
        exact h c (List.mem_append_left _ hc) d (List.mem_append_right _ hd)
      exact ⟨_, squash_pair_eq_ok.2 ⟨a, b, ha, hb, hspace, rfl⟩⟩

theorem dataSpace_of_squash {g : Grouping} (hg : ∀ c ∈ g.clusters, c.dataSpace.Recorded)
    {c : Cluster} (h : g.squash = .ok c) :
    c.dataSpace = .union (g.clusters.map (·.dataSpace)) := by
  induction g generalizing c with
  | single d =>
    obtain rfl := Except.ok.inj h
    exact (hg d (List.mem_singleton_self d)).wellFormed.union_singleton.symm
  | pair l r ihl ihr =>
    obtain ⟨a, b, ha, hb, -, rfl⟩ := squash_pair_eq_ok.1 h
    rw [clusters, List.forall_mem_append] at hg
    calc (a.absorb b).dataSpace
      _ = .union [a.dataSpace, b.dataSpace] := rfl
      _ = .union
          [.union (l.clusters.map (·.dataSpace)), .union (r.clusters.map (·.dataSpace))] := by
        rw [ihl hg.1 ha, ihr hg.2 hb]
      _ = .union ((pair l r).clusters.map (·.dataSpace)) := by
        rw [DataSpace.union_pair, clusters, List.map_append]

section Congruence

variable {g g' : Grouping} (hmem : ∀ c, c ∈ g.clusters ↔ c ∈ g'.clusters)

include hmem

theorem exists_squash_congr : (∃ c, g.squash = .ok c) ↔ ∃ c, g'.squash = .ok c := by
  simp only [exists_squash_iff, hmem]

theorem dataSpace_squash_congr (hg : ∀ c ∈ g.clusters, c.dataSpace.Recorded) {c c' : Cluster}
    (h : g.squash = .ok c) (h' : g'.squash = .ok c') : c.dataSpace = c'.dataSpace := by
  have hg' : ∀ c ∈ g'.clusters, c.dataSpace.Recorded := fun c hc => hg c ((hmem c).2 hc)
  rw [dataSpace_of_squash hg h, dataSpace_of_squash hg' h']
  apply DataSpace.union_congr
  simp only [List.mem_map, hmem, implies_true]

end Congruence

end Grouping

end Cluster

namespace DataSpace

/--
The union of data spaces that were made step by step records the least ranges around those of its
members, each interval under its own dimension. It is commutative, associative and idempotent, for
lists as well as for pairs of spaces. If clusters can be put together, then they can be in any order
and grouping, and what they touch is always the same.
-/
theorem union_semilattice (ss : List DataSpace) :
    ((∀ s ∈ ss, s.Recorded) → ∀ f d,
      (∀ s ∈ union ss :: ss, ∀ i, s.find? f d = some i → i.dimension = d) ∧
      Bounds.IsHull {b | ∃ s ∈ ss, s.find? f d = some ⟨d, b⟩} ((union ss).bounds? f d)) ∧
    (∀ ts : List DataSpace, (∀ s, s ∈ ss ↔ s ∈ ts) → union ss = union ts) ∧
    (∀ sss : List (List DataSpace), sss.flatten = ss → union (sss.map union) = union ss) ∧
    (∀ s t u, union [s, t] = union [t, s] ∧ union [union [s, t], u] = union [s, union [t, u]] ∧
      (s.Recorded → union [s, s] = s)) ∧
    ∀ g g' : Cluster.Grouping, (∀ c ∈ g.clusters, c.dataSpace.Recorded) →
      (∀ c, c ∈ g.clusters ↔ c ∈ g'.clusters) →
      ((∃ c, g.squash = .ok c) ↔ ∃ c, g'.squash = .ok c) ∧
        ∀ c c', g.squash = .ok c → g'.squash = .ok c' → c.dataSpace = c'.dataSpace := by
  refine ⟨?_, fun ts => union_congr, ?_, ?_, ?_⟩
  · intro hss f d
    have hwellFormed : ∀ s ∈ union ss :: ss, s.WellFormed :=
      List.forall_mem_cons.2 ⟨wellFormed_union ss, fun s hs => (hss s hs).wellFormed⟩
    exact ⟨fun s hs i => (hwellFormed s hs).keyed f d i,
      isHull_find?_union (List.forall_mem_cons.1 hwellFormed).2 f d⟩
  · rintro sss rfl
    exact union_map_union sss
  · exact fun s t u => ⟨union_comm s t, union_assoc s t u, Recorded.union_self⟩
  · exact fun g g' hg hmem => ⟨Cluster.Grouping.exists_squash_congr hmem,
      fun c c' => Cluster.Grouping.dataSpace_squash_congr hmem hg⟩

section Tiles

def tiled : GridFunction :=
  .declare "u" .dense [.space "x", .space "y"] [.ofInt 8, .ofInt 8]

def west : DataSpace := empty.extend tiled (.space "x") ⟨0, 3⟩

def east : DataSpace :=
  (empty.extend tiled (.space "x") ⟨2, 5⟩).extend tiled (.space "y") ⟨1, 1⟩

def tile (s : DataSpace) : Cluster.Grouping := .single ⟨[], .empty, s, .empty, .empty⟩

theorem union_semilattice_tiles :
    west.Recorded ∧ east.Recorded ∧
      (union [west, east]).find? tiled (.space "x") = some ⟨.space "x", ⟨0, 5⟩⟩ ∧
      IsGreatest (Bounds.upper ''
        {b | ∃ s ∈ [west, east], s.find? tiled (.space "x") = some ⟨.space "x", b⟩}) 5 ∧
      union [east, east] = east ∧
      ∃ c c', (Cluster.Grouping.pair (tile west) (.pair (tile east) (tile west))).squash = .ok c ∧
        (Cluster.Grouping.pair (tile east) (tile west)).squash = .ok c' ∧
        c.dataSpace = c'.dataSpace := by
  have hwest : west.Recorded := .extend .empty ..
  have heast : east.Recorded := .extend (.extend .empty ..) ..
  have hfind : (union [west, east]).find? tiled (.space "x") = some ⟨.space "x", ⟨0, 5⟩⟩ := by
    decide +kernel
  obtain ⟨hhull, -, -, hlaws, hsquash⟩ := union_semilattice [west, east]
  have hrange := (hhull (by simp [hwest, heast]) tiled (.space "x")).2
  rw [bounds?, hfind, Option.map_some] at hrange
  have hsame := hsquash (.pair (tile west) (.pair (tile east) (tile west)))
    (.pair (tile east) (tile west)) (by simp [Cluster.Grouping.clusters, tile, hwest, heast])
    (by simp [Cluster.Grouping.clusters, tile, or_comm])
  exact ⟨hwest, heast, hfind, hrange.2, (hlaws east west west).2.2 heast, _, _, rfl, rfl,
    hsame.2 _ _ rfl rfl⟩

end Tiles

end DataSpace

end Stencil
