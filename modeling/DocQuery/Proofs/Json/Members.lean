import DocQuery.Json.Basic
import Mathlib.Order.Defs.LinearOrder

/-!
# Members in the order of their names

Members are put one by one into members that are already in order; one of a name that is there
takes its place. So the names of the result ascend strictly, whatever the order and the repetitions
were, and members whose names ascend strictly already stay as they are.

Main names:

* `Json.Sorted` — every name is before those that follow it;
* `Json.sorted_sortMembers`, `Json.mem_of_mem_sortMembers` — what sorting makes of any members;
* `Json.sortMembers_eq_self` — what is sorted stays.
-/

namespace DocQuery.Json

variable {α : Type} {name : String} {a : α} {m : String × α} {members sorted : List (String × α)}

/-- Every name is before the names that follow it. -/
def Sorted (members : List (String × α)) : Prop :=
  members.Pairwise fun m m' => compare m.1 m'.1 = .lt

theorem mem_of_mem_insertMember (hm : m ∈ insertMember name a members) :
    m = (name, a) ∨ m ∈ members := by
  induction members with
  | nil => exact Or.inl (List.mem_singleton.mp hm)
  | cons first rest ih =>
      obtain ⟨other, b⟩ := first
      unfold insertMember at hm
      split at hm
      · exact List.mem_cons.mp hm
      · exact (List.mem_cons.mp hm).imp_right (List.mem_cons_of_mem _)
      · rcases List.mem_cons.mp hm with rfl | hrest
        · exact Or.inr (List.mem_cons_self ..)
        · exact (ih hrest).imp_right (List.mem_cons_of_mem _)

theorem Sorted.insertMember (hsorted : Sorted members) (name : String) (a : α) :
    Sorted (insertMember name a members) := by
  induction members with
  | nil => exact List.pairwise_singleton _ _
  | cons first rest ih =>
      obtain ⟨other, b⟩ := first
      obtain ⟨hfirst, hrest⟩ := List.pairwise_cons.mp hsorted
      unfold Json.insertMember
      split
      · rename_i hbefore
        refine List.pairwise_cons.mpr ⟨fun m hm => ?_, hsorted⟩
        rcases List.mem_cons.mp hm with rfl | hm
        · exact hbefore
        · exact Std.TransCmp.lt_trans hbefore (hfirst m hm)
      -- The new member stands where the one of its name was.
      · rename_i hsame
        have heq : name = other := Std.LawfulEqCmp.eq_of_compare hsame
        subst heq
        exact List.pairwise_cons.mpr ⟨hfirst, hrest⟩
      · rename_i hafter
        refine List.pairwise_cons.mpr ⟨fun m hm => ?_, ih hrest⟩
        rcases mem_of_mem_insertMember hm with rfl | hm
        · exact Std.OrientedCmp.gt_iff_lt.mp hafter
        · exact hfirst m hm

/-- A name that is after all others goes to the end. -/
theorem insertMember_of_forall_lt (hafter : ∀ m ∈ members, compare m.1 name = .lt) :
    insertMember name a members = members ++ [(name, a)] := by
  induction members with
  | nil => rfl
  | cons first rest ih =>
      obtain ⟨other, b⟩ := first
      have hfirst : compare name other = .gt :=
        Std.OrientedCmp.gt_iff_lt.mpr (hafter (other, b) (List.mem_cons_self ..))
      unfold insertMember
      simp only [hfirst]
      rw [ih fun m hm => hafter m (List.mem_cons_of_mem _ hm), List.cons_append]

/-! ## Sorting -/

/-- The step of sorting, iterated: members are put into sorted ones. -/
private theorem sorted_foldl (hsorted : Sorted sorted) :
    Sorted (members.foldl (fun sorted m => insertMember m.1 m.2 sorted) sorted) := by
  induction members generalizing sorted with
  | nil => exact hsorted
  | cons first rest ih => exact ih (hsorted.insertMember first.1 first.2)

private theorem mem_of_mem_foldl
    (hm : m ∈ members.foldl (fun sorted m => insertMember m.1 m.2 sorted) sorted) :
    m ∈ members ∨ m ∈ sorted := by
  induction members generalizing sorted with
  | nil => exact Or.inr hm
  | cons first rest ih =>
      rcases ih hm with hrest | hsorted
      · exact Or.inl (List.mem_cons_of_mem _ hrest)
      · rcases mem_of_mem_insertMember hsorted with rfl | hsorted
        · exact Or.inl (List.mem_cons_self ..)
        · exact Or.inr hsorted

private theorem foldl_of_sorted (hsorted : Sorted (sorted ++ members)) :
    members.foldl (fun sorted m => insertMember m.1 m.2 sorted) sorted = sorted ++ members := by
  induction members generalizing sorted with
  | nil => exact (List.append_nil sorted).symm
  | cons first rest ih =>
      have hafter : ∀ m ∈ sorted, compare m.1 first.1 = .lt := fun m hm =>
        (List.pairwise_append.mp hsorted).2.2 m hm first (List.mem_cons_self ..)
      rw [List.foldl_cons, insertMember_of_forall_lt hafter, List.append_cons sorted first rest]
      refine ih ?_
      rwa [← List.append_cons]

theorem sorted_sortMembers (members : List (String × α)) : Sorted (sortMembers members) :=
  sorted_foldl List.Pairwise.nil

theorem mem_of_mem_sortMembers (hm : m ∈ sortMembers members) : m ∈ members :=
  (mem_of_mem_foldl hm).resolve_right List.not_mem_nil

theorem sortMembers_eq_self (hsorted : Sorted members) : sortMembers members = members :=
  foldl_of_sorted hsorted

end DocQuery.Json
