import Mathlib.Data.List.Forall2
import Mathlib.Data.List.Nodup
import Stencil.OrdMap

/-!
This module contains what the operations on ordered maps do to lookups.
-/

namespace Stencil

universe u v w

theorem nodup_eraseDups {α : Type u} [DecidableEq α] (as : List α) : as.eraseDups.Nodup := by
  match as with
  | [] => simp
  | a :: as =>
    rw [List.eraseDups_cons, List.nodup_cons]
    exact ⟨by simp, nodup_eraseDups _⟩
termination_by as.length
decreasing_by exact Nat.lt_succ_of_le (List.length_filter_le ..)

namespace OrdMap

variable {κ : Type u} {υ : Type v} {υ' : Type w} [Ord κ]

theorem nodup_keys [Std.LawfulEqOrd κ] (m : OrdMap κ υ) : m.keys.Nodup := by
  unfold keys
  rw [List.Nodup, List.pairwise_map]
  apply m.ordered.imp
  intro a b hlt heq
  simp [heq] at hlt

theorem nodup_entries [Std.LawfulEqOrd κ] (m : OrdMap κ υ) : m.entries.Nodup := by
  apply m.ordered.imp
  intro a b hlt heq
  simp [heq] at hlt

@[simp]
theorem find?_empty (k : κ) : (empty : OrdMap κ υ).find? k = none := rfl

theorem find?_eq_some_iff [Std.LawfulEqOrd κ] {m : OrdMap κ υ} {k : κ} {v : υ} :
    m.find? k = some v ↔ (k, v) ∈ m.entries := by
  have hmem : ∀ es : List (κ × υ), (es.map (·.1)).Nodup →
      ((es.find? fun e => compare k e.1 == .eq).map (·.2) = some v ↔ (k, v) ∈ es) := by
    intro es hnodup
    induction es with
    | nil => simp
    | cons e es ih =>
      obtain ⟨k', v'⟩ := e
      simp only [List.map_cons, List.nodup_cons, List.mem_map, not_exists, not_and] at hnodup
      by_cases hk : k = k'
      · subst hk
        have hnot : (k, v) ∉ es := fun h => hnodup.1 _ h rfl
        simp [hnot, eq_comm]
      · have hne : (compare k k' == .eq) = false := by simpa using hk
        rw [List.find?_cons, hne]
        simp only [List.mem_cons, Prod.mk.injEq, hk, false_and, false_or]
        exact ih hnodup.2
  exact hmem m.entries m.nodup_keys

theorem find?_eq_none_iff [Std.LawfulEqOrd κ] {m : OrdMap κ υ} {k : κ} :
    m.find? k = none ↔ k ∉ m.keys := by
  rw [Option.eq_none_iff_forall_ne_some]
  simp only [ne_eq, find?_eq_some_iff, keys, List.mem_map, Prod.exists, exists_and_right,
    exists_eq_right, not_exists]

theorem ext_find? [Std.TransOrd κ] [Std.LawfulEqOrd κ] {m m' : OrdMap κ υ}
    (h : ∀ k, m.find? k = m'.find? k) : m = m' := by
  have hmem : ∀ e, e ∈ m.entries ↔ e ∈ m'.entries := by
    intro e
    rw [← find?_eq_some_iff, ← find?_eq_some_iff, h]
  have hperm : m.entries.Perm m'.entries := by
    rw [List.perm_ext_iff_of_nodup m.nodup_entries m'.nodup_entries]
    exact hmem
  apply OrdMap.ext
  apply hperm.eq_of_pairwise _ m.ordered m'.ordered
  intro a b _ _ hab hba
  rw [Std.OrientedCmp.gt_iff_lt.2 hab] at hba
  cases hba

theorem mem_keys [Std.LawfulEqOrd κ] {m : OrdMap κ υ} {k : κ} :
    k ∈ m.keys ↔ ∃ v, m.find? k = some v := by
  simp only [find?_eq_some_iff, keys, List.mem_map, Prod.exists, exists_and_right,
    exists_eq_right]

theorem find?_filter [Std.LawfulEqOrd κ] (m : OrdMap κ υ) (p : κ → υ → Bool) (k : κ) :
    (m.filter p).find? k = (m.find? k).filter (p k) := by
  ext v
  rw [find?_eq_some_iff, Option.filter_eq_some_iff, find?_eq_some_iff]
  simp [filter]

theorem find?_mapValues [Std.LawfulEqOrd κ] (m : OrdMap κ υ) (f : υ → υ') (k : κ) :
    (m.mapValues f).find? k = (m.find? k).map f := by
  ext v
  rw [find?_eq_some_iff, Option.map_eq_some_iff]
  simp only [mapValues, List.mem_map, Prod.mk.injEq, Prod.exists, find?_eq_some_iff]
  constructor
  · rintro ⟨k', v', hmem, rfl, rfl⟩
    exact ⟨v', hmem, rfl⟩
  · rintro ⟨v', hmem, rfl⟩
    exact ⟨k, v', hmem, rfl, rfl⟩

theorem find?_filterMap [Std.LawfulEqOrd κ] (m : OrdMap κ υ) (f : κ → υ → Option υ') (k : κ) :
    (m.filterMap f).find? k = (m.find? k).bind (f k) := by
  ext v
  rw [find?_eq_some_iff, Option.bind_eq_some_iff]
  simp only [filterMap, List.mem_filterMap, Option.map_eq_some_iff, Prod.mk.injEq,
    find?_eq_some_iff]
  constructor
  · rintro ⟨e, he, _, hv, rfl, rfl⟩
    exact ⟨e.2, he, hv⟩
  · rintro ⟨u, hu, hv⟩
    exact ⟨(k, u), hu, v, hv, rfl, rfl⟩

theorem find?_erase [Std.LawfulEqOrd κ] [DecidableEq κ] (m : OrdMap κ υ) (k k' : κ) :
    (m.erase k).find? k' = if k = k' then none else m.find? k' := by
  unfold erase
  rw [find?_filter]
  by_cases hk : k = k'
  · subst hk
    cases m.find? k <;> simp
  · cases m.find? k' <;> simp [hk, Option.filter]

variable [Std.TransOrd κ] [Std.LawfulEqOrd κ] [DecidableEq κ]

theorem find?_alterEntries (k k' : κ) (f : Option υ → υ) {es : List (κ × υ)}
    (hes : es.Pairwise fun a b => compare a.1 b.1 = .lt) :
    ((alterEntries k f es).find? fun e => compare k' e.1 == .eq).map (·.2) =
      if k = k' then some (f ((es.find? fun e => compare k e.1 == .eq).map (·.2)))
      else (es.find? fun e => compare k' e.1 == .eq).map (·.2) := by
  induction es with
  | nil =>
    by_cases hk : k = k'
    · simp [alterEntries, hk]
    · simp [alterEntries, hk, Ne.symm hk]
  | cons e es ih =>
    obtain ⟨k'', v⟩ := e
    obtain ⟨hhead, htail⟩ := List.pairwise_cons.1 hes
    simp only [alterEntries]
    split
    case h_1 hlt =>
      -- `k` comes before all keys of the list, so it is not one of them.
      have hnone : ((k'', v) :: es).find? (fun e => compare k e.1 == .eq) = none := by
        rw [List.find?_eq_none]
        intro e he
        cases List.mem_cons.1 he with
        | inl heq => simp [heq, hlt]
        | inr hmem => simp [Std.TransCmp.lt_trans hlt (hhead e hmem)]
      rw [hnone, List.find?_cons]
      by_cases hk : k = k'
      · simp [hk]
      · have hne : (compare k' k == .eq) = false := by simpa using Ne.symm hk
        simp [hk, hne]
    case h_2 heq =>
      have hkk : k = k'' := Std.LawfulEqOrd.eq_of_compare heq
      subst hkk
      by_cases hk : k = k'
      · simp [hk]
      · have hne : (compare k' k == .eq) = false := by simpa using Ne.symm hk
        simp [hk, hne]
    case h_3 hgt =>
      have hkk : k ≠ k'' := fun h => by simp [h] at hgt
      rw [List.find?_cons]
      by_cases hk : k'' = k'
      · have hkk' : k ≠ k' := fun h => hkk (h.trans hk.symm)
        simp [hk, hkk']
      · have hne : (compare k' k'' == .eq) = false := by simpa using Ne.symm hk
        have hne' : (compare k k'' == .eq) = false := by simpa using hkk
        rw [hne, ih htail, List.find?_cons, List.find?_cons, hne, hne']

theorem find?_alter (m : OrdMap κ υ) (k k' : κ) (f : Option υ → υ) :
    (m.alter k f).find? k' = if k = k' then some (f (m.find? k)) else m.find? k' :=
  find?_alterEntries k k' f m.ordered

theorem find?_insert (m : OrdMap κ υ) (k k' : κ) (v : υ) :
    (m.insert k v).find? k' = if k = k' then some v else m.find? k' :=
  m.find?_alter k k' fun _ => v

theorem find?_foldl_insert (es : List (κ × υ)) (m : OrdMap κ υ) (k : κ) :
    (es.foldl (fun m e => m.insert e.1 e.2) m).find? k =
      ((es.reverse.find? fun e => decide (e.1 = k)).map (·.2)).or (m.find? k) := by
  induction es generalizing m with
  | nil => simp
  | cons e es ih =>
    rw [List.foldl_cons, ih, find?_insert, List.reverse_cons, List.find?_append]
    cases es.reverse.find? fun e => decide (e.1 = k) with
    | some e' => simp
    | none =>
      by_cases hk : e.1 = k
      · simp [hk]
      · simp [hk]

theorem find?_ofList (es : List (κ × υ)) (k : κ) :
    (ofList es).find? k = (es.reverse.find? fun e => decide (e.1 = k)).map (·.2) := by
  unfold ofList
  rw [find?_foldl_insert, find?_empty, Option.or_none]

theorem mem_of_find?_ofList {es : List (κ × υ)} {k : κ} {v : υ}
    (h : (ofList es).find? k = some v) : (k, v) ∈ es := by
  rw [find?_ofList, Option.map_eq_some_iff] at h
  obtain ⟨e, he, rfl⟩ := h
  have hkey : e.1 = k := by simpa using List.find?_some he
  rw [← hkey]
  exact List.mem_reverse.1 (List.mem_of_find?_eq_some he)

theorem find?_ofList_iff_of_agree {es : List (κ × υ)}
    (hagree : ∀ e ∈ es, ∀ e' ∈ es, e.1 = e'.1 → e.2 = e'.2) {k : κ} {v : υ} :
    (ofList es).find? k = some v ↔ (k, v) ∈ es := by
  refine ⟨mem_of_find?_ofList, fun hmem => ?_⟩
  cases hfind : (ofList es).find? k with
  | none =>
    rw [find?_ofList, Option.map_eq_none_iff, List.find?_eq_none] at hfind
    exact absurd (decide_eq_true rfl) (hfind (k, v) (List.mem_reverse.2 hmem))
  | some v' => exact congrArg some (hagree _ (mem_of_find?_ofList hfind) _ hmem rfl)

theorem find?_ofList_map_iff {ι : Type} {f : ι → κ} {g : ι → υ} (hf : Function.Injective f)
    {is : List ι} {k : κ} {v : υ} :
    (ofList (is.map fun i => (f i, g i))).find? k = some v ↔ ∃ i ∈ is, k = f i ∧ v = g i := by
  rw [find?_ofList_iff_of_agree]
  · simp only [List.mem_map, Prod.mk.injEq, eq_comm]
  · simp only [List.forall_mem_map]
    intro i _ j _ hkey
    rw [hf hkey]

theorem find?_ofList_iff {es : List (κ × υ)} (hnodup : (es.map (·.1)).Nodup) {k : κ} {v : υ} :
    (ofList es).find? k = some v ↔ (k, v) ∈ es := by
  apply find?_ofList_iff_of_agree
  intro e he e' he' hkey
  rw [List.inj_on_of_nodup_map hnodup he he' hkey]

theorem ofList_entries (m : OrdMap κ υ) : ofList m.entries = m := by
  apply ext_find?
  intro k
  ext v
  rw [find?_ofList_iff m.nodup_keys, find?_eq_some_iff]

section Related

variable {υ' : Type} {R : κ × υ' → κ × υ → Prop} {es : List (κ × υ')} {os : List (κ × υ)}
variable {k : κ} {u : υ'} {v : υ}

theorem exists_of_find?_ofList (hR : ∀ e o, R e o → e.1 = o.1) (h : List.Forall₂ R es os)
    (hv : (ofList os).find? k = some v) : ∃ u, (k, u) ∈ es ∧ R (k, u) (k, v) := by
  have hmem := mem_of_find?_ofList hv
  clear hv
  induction h with
  | nil => cases hmem
  | @cons e o es os heo _ ih =>
    rcases List.mem_cons.1 hmem with rfl | hmem
    · obtain ⟨_, u⟩ := e
      obtain rfl := hR _ _ heo
      exact ⟨u, List.mem_cons_self .., heo⟩
    · obtain ⟨u, hu, hrelated⟩ := ih hmem
      exact ⟨u, List.mem_cons_of_mem _ hu, hrelated⟩

theorem exists_find?_ofList (hR : ∀ e o, R e o → e.1 = o.1) (hnodup : (es.map (·.1)).Nodup)
    (h : List.Forall₂ R es os) (hu : (k, u) ∈ es) :
    ∃ v, (ofList os).find? k = some v ∧ R (k, u) (k, v) := by
  have hkeys : es.map (·.1) = os.map (·.1) := by
    rw [← List.forall₂_eq_eq_eq, List.forall₂_map_left_iff, List.forall₂_map_right_iff]
    exact h.imp hR
  have hkey : k ∈ os.map (·.1) := hkeys ▸ List.mem_map_of_mem hu
  obtain ⟨⟨_, v⟩, hv, rfl⟩ := List.mem_map.1 hkey
  have hfind := (find?_ofList_iff (hkeys ▸ hnodup)).2 hv
  obtain ⟨u', hu', hrelated⟩ := exists_of_find?_ofList hR h hfind
  obtain rfl : u = u' := (Prod.mk.inj (List.inj_on_of_nodup_map hnodup hu hu' rfl)).2
  exact ⟨v, hfind, hrelated⟩

end Related

end OrdMap

end Stencil
