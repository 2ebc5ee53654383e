import Mathlib
import TableWire.Dictionary
/-!
Dictionaries as maps. A list of entries makes a dictionary in which every name has the last value
that the list gives to it; a dictionary itself gives each name one value at most.
-/

namespace TableWire.Dictionary

variable {α : Type} {name : String}

/-- All values that entries give to a name, in their order. -/
def given (name : String) (es : List (String × α)) : List α :=
  es.filterMap fun e => if e.1 = name then some e.2 else none

theorem mem_given {es : List (String × α)} {a : α} : a ∈ given name es ↔ (name, a) ∈ es := by
  simp only [given, List.mem_filterMap, Option.ite_none_right_eq_some, Option.some.injEq]
  constructor
  · rintro ⟨e, mem, rfl, rfl⟩
    exact mem
  · exact fun mem => ⟨_, mem, rfl, rfl⟩

theorem given_cons (e : String × α) (es : List (String × α)) :
    given name (e :: es) = if e.1 = name then e.2 :: given name es else given name es := by
  by_cases same : e.1 = name <;> simp [given, same]

theorem given_append (es es' : List (String × α)) :
    given name (es ++ es') = given name es ++ given name es' := List.filterMap_append

/-- Of the values given to a name the last is kept. -/
theorem get?_ofList (es : List (String × α)) :
    (ofList es).get? name = (given name es).getLast? := by
  induction es using List.reverseRecOn with
  | nil => rfl
  | append_singleton es e ih =>
    have last : ofList (es ++ [e]) = (ofList es).insert e.1 e.2 := by
      rw [ofList, ofList, List.foldl_append, List.foldl_cons, List.foldl_nil]
    rw [last, get?_insert, given_append, List.getLast?_append, ← ih]
    by_cases same : e.1 = name
    · simp [given, same]
    · simp [given, same, Ne.symm same]

theorem get?_ofList_append (es es' : List (String × α)) :
    (ofList (es ++ es')).get? name = ((ofList es').get? name).or ((ofList es).get? name) := by
  rw [get?_ofList, get?_ofList, get?_ofList, given_append, List.getLast?_append]

/-- The names of a dictionary are unique, because they ascend. -/
theorem given_toList (d : Dictionary α) : given name d.toList = (d.get? name).toList := by
  obtain ⟨es, ascending⟩ := d
  simp only [toList, get?]
  induction es with
  | nil => rfl
  | cons e es ih =>
    obtain ⟨above, ascending⟩ := List.pairwise_cons.mp ascending
    by_cases same : e.1 = name
    · have others : given name es = [] := by
        refine List.filterMap_eq_nil_iff.mpr fun e' mem => if_neg fun same' => ?_
        exact Before.irrefl _ ((same.trans same'.symm) ▸ above e' mem)
      simp [given_cons, same, others]
    · simp [given_cons, same, ih ascending]

theorem get?_eq_some_iff {d : Dictionary α} {a : α} :
    d.get? name = some a ↔ (name, a) ∈ d.toList := by
  rw [← mem_given, given_toList, Option.mem_toList]

/-- In whatever order its entries are listed, they make the dictionary again. -/
theorem get?_ofList_of_perm {d : Dictionary α} {es : List (String × α)} (h : es.Perm d.toList) :
    (ofList es).get? name = d.get? name := by
  have only : (given name es).Perm (d.get? name).toList := given_toList d ▸ h.filterMap _
  rw [get?_ofList]
  cases found : d.get? name with
  | none =>
    rw [found] at only
    rw [List.perm_nil.mp only]
    rfl
  | some a =>
    rw [found] at only
    rw [List.perm_singleton.mp only]
    rfl

end TableWire.Dictionary
