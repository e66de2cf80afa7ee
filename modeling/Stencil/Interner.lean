/-!
This module contains interners, which give keys to strings. A string keeps its key, and no other
string gets it.
-/

namespace Stencil

structure Interner where
  strings : List String
  nodup : strings.Nodup

namespace Interner

def empty : Interner := ⟨[], .nil⟩

def size (n : Interner) : Nat := n.strings.length

def key? (n : Interner) (s : String) : Option Nat := n.strings.idxOf? s

theorem nodup_append {n : Interner} {s : String} (h : n.key? s = none) :
    (n.strings ++ [s]).Nodup := by
  rw [List.nodup_append]
  refine ⟨n.nodup, by simp, ?_⟩
  rintro s' hs' _ hs rfl
  rw [List.mem_singleton.1 hs] at hs'
  exact List.idxOf?_eq_none_iff.1 h hs'

def intern (n : Interner) (s : String) : Nat × Interner :=
  match h : n.key? s with
  | some key => (key, n)
  | none => (n.size, ⟨n.strings ++ [s], nodup_append h⟩)

theorem key?_eq_some_iff {n : Interner} {s : String} {key : Nat} :
    n.key? s = some key ↔ n.strings[key]? = some s := by
  unfold key?
  rw [List.idxOf?_eq_some_iff, List.getElem?_eq_some_iff]
  constructor
  · rintro ⟨hkey, hs, -⟩
    exact ⟨hkey, hs⟩
  · rintro ⟨hkey, hs⟩
    refine ⟨hkey, hs, fun i hi heq => ?_⟩
    exact List.pairwise_iff_getElem.1 n.nodup i key _ hkey hi (heq.trans hs.symm)

theorem key?_inj {n : Interner} {s s' : String} {key : Nat} (h : n.key? s = some key)
    (h' : n.key? s' = some key) : s = s' :=
  Option.some.inj ((key?_eq_some_iff.1 h).symm.trans (key?_eq_some_iff.1 h'))

theorem key?_intern (n : Interner) (s : String) :
    (∀ key, n.key? s = some key → n.intern s = (key, n)) ∧
      ∀ s', (n.intern s).2.key? s' = if s = s' then some (n.intern s).1 else n.key? s' := by
  unfold intern
  split
  · next key hkey =>
    refine ⟨fun key' hkey' => ?_, fun s' => ?_⟩
    · rw [Option.some.inj (hkey.symm.trans hkey')]
    · split
      · next heq => rw [← heq, hkey]
      · rfl
  · next hkey =>
    refine ⟨fun key' hkey' => ?_, fun s' => ?_⟩
    · rw [hkey] at hkey'
      cases hkey'
    · have happend : (⟨n.strings ++ [s], nodup_append hkey⟩ : Interner).key? s' =
          (n.key? s').or (if s = s' then some n.size else none) := by
        by_cases heq : s = s' <;> simp [key?, List.idxOf?, List.findIdx?_append, size, heq]
      rw [happend]
      split
      · next heq =>
        have hnone : n.key? s' = none := heq ▸ hkey
        rw [hnone, Option.none_or]
      · rw [Option.or_none]

def IsKey (n : Interner) (key : Nat) : Prop := ∃ s, n.key? s = some key

theorem isKey_intern (n : Interner) (s : String) : (n.intern s).2.IsKey (n.intern s).1 :=
  ⟨s, by rw [(n.key?_intern s).2, if_pos rfl]⟩

theorem IsKey.intern {n : Interner} {key : Nat} (h : n.IsKey key) (s : String) :
    (n.intern s).2.IsKey key := by
  obtain ⟨s', hkey⟩ := h
  refine ⟨s', ?_⟩
  rw [(n.key?_intern s).2]
  split
  · next heq => rw [(n.key?_intern s).1 key (heq ▸ hkey)]
  · exact hkey

theorem not_isKey_intern {n : Interner} {s : String} (h : n.key? s = none) :
    ¬ n.IsKey (n.intern s).1 := by
  rintro ⟨s', hkey⟩
  have hne : s ≠ s' := by
    rintro rfl
    rw [h] at hkey
    cases hkey
  have hself : (n.intern s).2.key? s = some (n.intern s).1 := by
    rw [(n.key?_intern s).2, if_pos rfl]
  have hother : (n.intern s).2.key? s' = some (n.intern s).1 := by
    rw [(n.key?_intern s).2, if_neg hne, hkey]
  exact hne (key?_inj hself hother)

end Interner

end Stencil
