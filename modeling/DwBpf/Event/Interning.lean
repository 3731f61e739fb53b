import DwBpf.Event.Accounting
import DwBpf.Event.Progress
import Mathlib.Data.List.Forall2

/-! # The interned dsos

`dsos__findnew` returns the dso of a name and adds it when it is new, to a list and
to a tree that is ordered by the long names. The short name, which breaks ties
between equal long names, is changed after the dso was linked; since the names in
the tree differ, no tie ever comes up.
-/

namespace DwBpf

/-- The names looked up so far are those of the dsos, listed in the order in which
they came up first. -/
structure Store.Names (names : List (List Char)) (store : Store) : Prop where
  interned : store.Interned
  listed : store.dsosHead.Perm store.dsosRoot.toList
  order : store.dsosHead.map (Dso.name store) = names.eraseDups

/-- The dso is in the list, under the name. -/
def Store.Lists (store : Store) (name : List Char) (dso : Ref Dso) : Prop :=
  dso ∈ store.dsosHead ∧ Dso.name store dso = name

theorem names_empty : Store.empty.Names [] where
  interned := accounted_empty.interned
  listed := .nil
  order := rfl

section Names

variable {names : List (List Char)} {name : List Char} {store next : Store} {dso ref : Ref Dso}

theorem Store.Names.live (isNames : store.Names names) (member : ref ∈ store.dsosHead) :
    ∃ object, store.dsos.get? ref = some object :=
  isNames.interned.live ref (isNames.listed.mem_iff.mp member)

theorem Store.Names.mem_names (isNames : store.Names names) (member : ref ∈ store.dsosHead) :
    Dso.name store ref ∈ names := by
  rw [← List.mem_eraseDups, ← isNames.order]
  exact List.mem_map_of_mem member

/-- Listed dsos with the same name are the same. -/
theorem Store.Names.eq_of_name_eq (isNames : store.Names names) (first : dso ∈ store.dsosHead)
    (second : ref ∈ store.dsosHead) (same : Dso.name store dso = Dso.name store ref) :
    dso = ref := by
  have apart : (store.dsosRoot.toList.map (Dso.name store)).Nodup :=
    List.pairwise_map.mpr (isNames.interned.sorted.imp ne_of_lt)
  exact List.inj_on_of_nodup_map apart (isNames.listed.mem_iff.mp first)
    (isNames.listed.mem_iff.mp second) same

/-- A listed dso stays listed under its name. -/
theorem Dsos.Found.lists (found : Dsos.Found store name dso next) {other : List Char}
    (live : ∃ object, store.dsos.get? ref = some object) (lists : store.Lists other ref) :
    next.Lists other ref := by
  obtain ⟨object, isLive⟩ := live
  obtain ⟨after, afterLive, longName⟩ := found.live_of_live isLive
  obtain ⟨member, named⟩ := lists
  rw [Dso.name_of_live isLive] at named
  refine ⟨?_, by rw [Dso.name_of_live afterLive, longName, named]⟩
  cases found with
  | known => exact member
  | added => exact List.mem_append_left _ member

theorem Dsos.Found.lists_self (found : Dsos.Found store name dso next)
    (isNames : store.Names names) : next.Lists name dso := by
  obtain ⟨object, live, named⟩ := found.live
  refine ⟨?_, by rw [Dso.name_of_live live, named]⟩
  cases found with
  | known member => exact isNames.listed.mem_iff.mpr member
  | added => exact List.mem_append_right _ (List.mem_singleton_self _)

theorem eraseDups_concat {α : Type} [BEq α] [LawfulBEq α] (values : List α) (value : α) :
    (values ++ [value]).eraseDups =
      if values.contains value then values.eraseDups else values.eraseDups ++ [value] := by
  rw [List.eraseDups_append, List.cons_removeAll, List.removeAll, List.filter_nil]
  cases values.contains value with
  | true => exact List.append_nil _
  | false => rfl

/-- Looking up a name adds it to those that are known. -/
theorem Store.Names.found (isNames : store.Names names)
    (found : Dsos.Found store name dso next) : next.Names (names ++ [name]) where
  interned := found.interned isNames.interned
  listed := found.listed isNames.listed
  order := by
    have same : store.dsosHead.map (Dso.name next) = store.dsosHead.map (Dso.name store) := by
      apply List.map_congr_left
      intro ref member
      exact (found.lists (isNames.live member) ⟨member, rfl⟩).2
    rw [eraseDups_concat]
    cases found with
    | @known dso object member live named =>
        have old : name ∈ names := by
          rw [← named, ← Dso.name_of_live live]
          exact isNames.mem_names (isNames.listed.mem_iff.mpr member)
        rw [if_pos (List.contains_iff_mem.mpr old), ← isNames.order]
        exact same
    | added fell =>
        have new : name ∉ names := by
          rw [← List.mem_eraseDups, ← isNames.order, List.mem_map]
          rintro ⟨ref, member, named⟩
          exact isNames.interned.name_ne fell ref (isNames.listed.mem_iff.mp member) named
        rw [if_neg (mt List.contains_iff_mem.mp new), ← isNames.order, ← same, List.map_append,
          List.map_singleton]
        simp [Dso.name]

/-- The search by the long name agrees with a scan of the list. -/
theorem Store.Names.find_eq (isNames : store.Names names) (name : List Char) :
    Dsos.find store name false =
      .ok (store.dsosHead.find? fun pos => Dso.name store pos = name) := by
  unfold Dsos.find Dso.findlinkByLongname
  cases located : store.dsosRoot.locate (Dso.steer store none name) [] with
  | inl this =>
      obtain ⟨member, answer⟩ := Tree.locate_inl located
      obtain ⟨object, live⟩ := isNames.interned.live this member
      rw [Dso.steer_of_live live, compare_eq_iff_eq] at answer
      have listed := isNames.listed.mem_iff.mpr member
      have scanned : (store.dsosHead.find? fun pos => Dso.name store pos = name) = some this := by
        cases found : store.dsosHead.find? fun pos => Dso.name store pos = name with
        | none =>
            exact absurd (decide_eq_true answer.symm) (List.find?_eq_none.mp found this listed)
        | some pos =>
            have named := List.find?_some found
            rw [decide_eq_true_iff] at named
            rw [isNames.eq_of_name_eq (List.mem_of_find?_eq_some found) listed
              (named.trans answer)]
      simp only [deref_of_get? live, ok_bind, pure_eq_ok, Bool.false_eq_true, ↓reduceIte, true_or,
        scanned]
  | inr path =>
      have scanned : (store.dsosHead.find? fun pos => Dso.name store pos = name) = none := by
        rw [List.find?_eq_none]
        intro ref member named
        exact isNames.interned.name_ne located ref (isNames.listed.mem_iff.mp member)
          (of_decide_eq_true named)
      simp only [ok_bind, pure_eq_ok, Bool.false_eq_true, ↓reduceIte, scanned]

end Names

/-- A call of `dsos__findnew`. -/
def Dsos.step (name : List Char) (store : Store) : Except Fault (Ref Dso × Store) :=
  Dsos.findnew store name

/-- What the calls with the names have returned and left. -/
structure Dsos.Interns (names : List (List Char)) (dsos : List (Ref Dso)) (store : Store) :
    Prop where
  same_iff : ∀ call ∈ names.zip dsos, ∀ other ∈ names.zip dsos,
    (call.2 = other.2 ↔ call.1 = other.1)
  returned : List.Forall₂ store.Lists names dsos
  live : ∀ ref ∈ store.dsosHead, ∃ object, store.dsos.get? ref = some object
  order : store.dsosHead.map (Dso.name store) = names.eraseDups
  perm : store.dsosHead.Perm store.dsosRoot.toList
  nodup : store.dsosHead.Nodup
  find : ∀ name, Dsos.find store name false =
    .ok (store.dsosHead.find? fun pos => Dso.name store pos = name)

/-- By induction on the names: every one is found or added, and those from before stay. -/
theorem Dsos.runs_of_names (names : List (List Char)) {past : List (List Char)} {store : Store}
    (isNames : store.Names past) :
    ∃ dsos last, runAll Dsos.step names store = .ok (dsos, last) ∧ last.Names (past ++ names) ∧
      (∀ name dso, store.Lists name dso → last.Lists name dso) ∧
      List.Forall₂ last.Lists names dsos := by
  induction names generalizing past store with
  | nil =>
      rw [List.append_nil]
      exact ⟨[], store, rfl, isNames, fun _ _ lists => lists, .nil⟩
  | cons name names ih =>
      obtain ⟨dso, next, ran⟩ := Dsos.findnew_returns isNames.interned name
      have found := Dsos.found_of_findnew isNames.interned ran
      obtain ⟨dsos, last, runs, lastNames, kept, returned⟩ := ih (isNames.found found)
      refine ⟨dso :: dsos, last, runAll_cons_eq_ok.mpr ⟨dso, next, dsos, ran, runs, rfl⟩, ?_, ?_,
        .cons (kept name dso (found.lists_self isNames)) returned⟩
      · rw [List.append_cons]
        exact lastNames
      · intro other ref lists
        exact kept other ref (found.lists (isNames.live lists.1) lists)

/-- What the names say of the dsos that were returned. -/
theorem Store.Names.interns {names : List (List Char)} {dsos : List (Ref Dso)} {store : Store}
    (isNames : store.Names names) (returned : List.Forall₂ store.Lists names dsos) :
    Dsos.Interns names dsos store where
  same_iff := by
    intro call isCall other isOther
    have lists : store.Lists call.1 call.2 := (List.forall₂_iff_zip.mp returned).2 isCall
    have lists' : store.Lists other.1 other.2 := (List.forall₂_iff_zip.mp returned).2 isOther
    constructor
    · intro same
      rw [← lists.2, ← lists'.2, same]
    · intro same
      exact isNames.eq_of_name_eq lists.1 lists'.1 (lists.2.trans (same.trans lists'.2.symm))
  returned := returned
  live := fun _ => isNames.live
  order := isNames.order
  perm := isNames.listed
  nodup := isNames.listed.nodup_iff.mpr isNames.interned.nodup
  find := isNames.find_eq

/-- Whatever names `dsos__findnew` is called with, it returns the same dso for the same
name only, and the list, the tree and the search by the long name agree. -/
theorem findnew_interns (names : List (List Char)) :
    ∃ dsos store, runAll Dsos.step names Store.empty = .ok (dsos, store) ∧
      Dsos.Interns names dsos store := by
  obtain ⟨dsos, store, ran, isNames, -, returned⟩ := Dsos.runs_of_names names names_empty
  rw [List.nil_append] at isNames
  exact ⟨dsos, store, ran, isNames.interns returned⟩

end DwBpf
