import Mathlib.Data.List.Nodup
import Stencil.Json.Basic

/-!
This module contains the fact that what is written as JSON is read back: the fields of a record,
whether they may be missing or not, lists and numbers. A record is given by its slots, which are the
names of its fields with the values that are there.
-/

namespace Stencil

namespace Json

variable {α β : Type}

theorem mapM_map_eq_some {γ : Type} {f : β → Option γ} {g : α → β} {h : α → γ} {as : List α}
    (hf : ∀ a ∈ as, f (g a) = some (h a)) : (as.map g).mapM f = some (as.map h) := by
  induction as with
  | nil => rfl
  | cons a as ih =>
    rw [List.forall_mem_cons] at hf
    rw [List.map_cons, List.mapM_cons, hf.1, ih hf.2]
    rfl

section Fields

variable {members : List (String × Json)} {key : String} {j : Json}

theorem member?_of_notMem (h : key ∉ members.map (·.1)) : member? members key = some none := by
  have hfilter : members.filter (·.1 == key) = [] := by
    rw [List.filter_eq_nil_iff]
    intro e he heq
    exact h (List.mem_map.2 ⟨e, he, eq_of_beq heq⟩)
  unfold member?
  rw [hfilter]

theorem member?_of_mem (hnodup : (members.map (·.1)).Nodup) (h : (key, j) ∈ members) :
    member? members key = some (some j) := by
  have hfilter : members.filter (·.1 == key) = [(key, j)] := by
    induction members with
    | nil => cases h
    | cons e members ih =>
      rw [List.map_cons, List.nodup_cons] at hnodup
      rcases List.mem_cons.1 h with rfl | h
      · rw [List.filter_cons, if_pos (beq_self_eq_true key), List.cons.injEq]
        refine ⟨rfl, List.filter_eq_nil_iff.2 fun e he heq => hnodup.1 ?_⟩
        exact List.mem_map.2 ⟨e, he, eq_of_beq heq⟩
      · have hne : ¬(e.1 == key) = true := by
          intro heq
          exact hnodup.1 (List.mem_map.2 ⟨_, h, (eq_of_beq heq).symm⟩)
        rw [List.filter_cons, if_neg hne]
        exact ih hnodup.2 h
  unfold member?
  rw [hfilter]

def membersOf (slots : List (String × Option Json)) : List (String × Json) :=
  slots.flatMap fun s => optionalMember s.1 id s.2

@[simp]
theorem membersOf_nil : membersOf [] = [] := rfl

@[simp]
theorem membersOf_cons_some (slots : List (String × Option Json)) :
    membersOf ((key, some j) :: slots) = (key, j) :: membersOf slots := rfl

theorem membersOf_cons_map (write : α → Json) (value : Option α)
    (slots : List (String × Option Json)) :
    membersOf ((key, value.map write) :: slots) =
      optionalMember key write value ++ membersOf slots := by
  cases value <;> rfl

theorem mem_membersOf {slots : List (String × Option Json)} :
    (key, j) ∈ membersOf slots ↔ (key, some j) ∈ slots := by
  unfold membersOf optionalMember
  simp only [List.mem_flatMap, Option.mem_toList, Option.map_eq_some_iff, id]
  constructor
  · rintro ⟨⟨_, _⟩, hs, j, rfl, heq⟩
    obtain ⟨rfl, rfl⟩ := Prod.mk.inj heq
    exact hs
  · intro h
    exact ⟨_, h, j, rfl, rfl⟩

theorem keys_membersOf_sublist (slots : List (String × Option Json)) :
    ((membersOf slots).map (·.1)).Sublist (slots.map (·.1)) := by
  induction slots with
  | nil => exact .slnil
  | cons s slots ih =>
    obtain ⟨key, _ | j⟩ := s
    · exact ih.cons key
    · exact ih.cons_cons key

theorem toFields?_membersOf (slots : List (String × Option Json))
    (h : (slots.map (·.1)).Nodup) :
    toFields? (slots.map (·.1)) (object (membersOf slots)) = some (slots.map (·.2)) := by
  apply mapM_map_eq_some
  rintro ⟨key, _ | j⟩ hs
  · apply member?_of_notMem
    intro hkey
    obtain ⟨⟨_, j⟩, hj, rfl⟩ := List.mem_map.1 hkey
    have heq := List.inj_on_of_nodup_map h hs (mem_membersOf.1 hj) rfl
    cases heq
  · exact member?_of_mem ((keys_membersOf_sublist slots).nodup h) (mem_membersOf.2 hs)

end Fields

section Readers

variable {read : Json → Option α} {write : α → Json}

@[simp]
theorem required_some (read : Json → Option α) (j : Json) : required read (some j) = read j := rfl

@[simp]
theorem withDefault_some (default : α) (read : Json → Option α) (j : Json) :
    withDefault default read (some j) = read j := rfl

theorem optional_map (hnull : read null = none) {value : Option α}
    (h : ∀ a ∈ value, read (write a) = some a) : optional read (value.map write) = some value := by
  cases value with
  | none => rfl
  | some a =>
    have ha := h a rfl
    rw [Option.map_some, optional]
    unfold toOption?
    split
    · next hwrite =>
      rw [hwrite, hnull] at ha
      cases ha
    · rw [ha]
      rfl

theorem toListOf?_map {as : List α} (h : ∀ a ∈ as, read (write a) = some a) :
    toListOf? read (array (as.map write)) = some as := by
  rw [toListOf?, toList?, Option.bind_eq_bind, Option.bind_some, mapM_map_eq_some (h := id) h,
    List.map_id]

theorem optional_string (s : Option String) : optional toString? (s.map string) = some s :=
  optional_map rfl fun _ _ => rfl

theorem toListOf?_strings (names : List String) :
    toListOf? toString? (array (names.map string)) = some names :=
  toListOf?_map fun _ _ => rfl

theorem toInt?_int {i : Int} (h : Word.isSigned i = true) : toInt? (int i) = some i := by
  rw [toInt?, if_pos h]

theorem toShort?_int {i : Int} (h : Word.isShort i = true) : toShort? (int i) = some i := by
  rw [toShort?, if_pos h]

theorem toNat?_int {n : Nat} (h : Word.isUnsigned n = true) : toNat? (int n) = some n := by
  rw [toNat?, if_pos ⟨Int.natCast_nonneg n, h⟩]
  rfl

end Readers

section Depth

variable {items : List Json} {members : List (String × Json)} {key : String} {j : Json}

theorem le_depthOfList (h : j ∈ items) : j.depth ≤ depthOfList items := by
  induction items with
  | nil => cases h
  | cons j' items ih =>
    rw [depthOfList]
    rcases List.mem_cons.1 h with rfl | h
    · exact Nat.le_max_left ..
    · exact Nat.le_trans (ih h) (Nat.le_max_right ..)

theorem le_depthOfMembers (h : (key, j) ∈ members) : j.depth ≤ depthOfMembers members := by
  induction members with
  | nil => cases h
  | cons e members ih =>
    rw [depthOfMembers]
    rcases List.mem_cons.1 h with rfl | h
    · exact Nat.le_max_left ..
    · exact Nat.le_trans (ih h) (Nat.le_max_right ..)

theorem depth_lt_of_mem_array (h : j ∈ items) : j.depth < (array items).depth :=
  Nat.lt_succ_of_le (le_depthOfList h)

theorem depth_lt_of_mem_object (h : (key, j) ∈ members) : j.depth < (object members).depth :=
  Nat.lt_succ_of_le (le_depthOfMembers h)

theorem depth_add_two_le (hj : j ∈ items) (hitems : (key, array items) ∈ members) :
    j.depth + 2 ≤ (object members).depth :=
  Nat.lt_of_le_of_lt (depth_lt_of_mem_array hj) (depth_lt_of_mem_object hitems)

theorem toListOf?_items (key : String) {slots : List (String × Option Json)} {as : List α}
    {write : α → Json} {read : Nat → Json → Option α} {depth : Nat}
    (hslot : (key, some (array (as.map write))) ∈ slots)
    (hdepth : (object (membersOf slots)).depth ≤ depth)
    (h : ∀ a ∈ as, ∀ n, (write a).depth ≤ n → read n (write a) = some a) :
    toListOf? (read (depth - 2)) (array (as.map write)) = some as := by
  refine toListOf?_map fun a ha => h a ha _ ?_
  have hnested := depth_add_two_le (List.mem_map_of_mem ha) (mem_membersOf.2 hslot)
  omega

/-- All tokens of a value have a value, so that only its depth can make it unreadable. -/
def HasValues (j : Json) : Prop := ∀ n, j.depth ≤ n → j.isReadable n = true

theorem HasValues.array (h : ∀ j ∈ items, j.HasValues) : (array items).HasValues := by
  have hitems : ∀ n, depthOfList items ≤ n → areReadable n items = true := by
    intro n hn
    induction items with
    | nil => rfl
    | cons j items ih =>
      rw [List.forall_mem_cons] at h
      rw [depthOfList, Nat.max_le] at hn
      rw [areReadable, h.1 n hn.1, ih h.2 hn.2]
      rfl
  intro n hn
  cases n with
  | zero => cases hn
  | succ n => exact hitems n (Nat.le_of_succ_le_succ hn)

theorem HasValues.object (h : ∀ e ∈ members, e.2.HasValues) : (object members).HasValues := by
  have hmembers : ∀ n, depthOfMembers members ≤ n → membersAreReadable n members = true := by
    intro n hn
    induction members with
    | nil => rfl
    | cons e members ih =>
      rw [List.forall_mem_cons] at h
      rw [depthOfMembers, Nat.max_le] at hn
      rw [membersAreReadable, h.1 n hn.1, ih h.2 hn.2]
      rfl
  intro n hn
  cases n with
  | zero => cases hn
  | succ n => exact hmembers n (Nat.le_of_succ_le_succ hn)

theorem hasValues_string (s : String) : (string s).HasValues := fun _ _ => rfl

theorem hasValues_int (i : Int) : (int i).HasValues := fun _ _ => rfl

theorem hasValues_ofFloat (x : Float) : (ofFloat x).HasValues := by
  intro n _
  unfold ofFloat
  split <;> rfl

end Depth

end Json

end Stencil
