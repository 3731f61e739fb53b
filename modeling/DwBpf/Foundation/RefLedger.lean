import Mathlib.Data.BitVec
import Mathlib.Data.List.Basic
import Mathlib.Logic.Function.Basic
import Mathlib.Logic.Relation

/-! # Ledgers of references

A ledger keeps the counters of the objects that exist, and what happened to them: a
reference was put while the counter had some value, or the object was destroyed. An
object is destroyed only after its counter got to zero, and the reference that it held
to another object is put then. Whatever the objects are, an object that is gone was
released exactly once (`DwBpf.RefLedger.Run.released`), and as long as no counter is
decremented below zero it has counted the references that were put
(`DwBpf.RefLedger.Run.counted`).
-/

namespace DwBpf

inductive RefEvent (ο : Type*) (w : Nat) where
  | put (object : ο) (count : BitVec w)
  | free (object : ο)
  deriving DecidableEq

def RefEvent.object {ο : Type*} {w : Nat} : RefEvent ο w → ο
  | put object _ | free object => object

/-- The counters, the number of references that objects hold to each, and the events. -/
structure RefLedger (ο : Type*) (w : Nat) where
  count? : ο → Option (BitVec w)
  held : ο → Nat
  events : List (RefEvent ο w)

variable {ο : Type*} [DecidableEq ο] {w : Nat}

/-- The events of one object. -/
def RefEvent.about (object : ο) (events : List (RefEvent ο w)) : List (RefEvent ο w) :=
  events.filter fun event => event.object = object

/-- The last reference was put and the object destroyed, both once. -/
def RefEvent.Released (events : List (RefEvent ο w)) (object : ο) : Prop :=
  ∃ earlier, RefEvent.about object events = earlier ++ [.put object 1, .free object] ∧
    .free object ∉ earlier

/-- How many references to the object were put. -/
def RefEvent.puts (object : ο) (events : List (RefEvent ο w)) : Nat :=
  (RefEvent.about object events).countP fun event => event ≠ .free object

namespace RefLedger

def afterPut (ledger : RefLedger ο w) (object : ο) (count : BitVec w) : RefLedger ο w :=
  { ledger with
    count? := Function.update ledger.count? object (some (count - 1))
    events := ledger.events ++ [.put object count] }

def afterFree (ledger : RefLedger ο w) (object : ο) : RefLedger ο w :=
  { ledger with
    count? := Function.update ledger.count? object none
    events := ledger.events ++ [.free object] }

/-- What can happen to a ledger. -/
inductive Step : RefLedger ο w → RefLedger ο w → Prop
  | put {ledger : RefLedger ο w} {object : ο} {count : BitVec w}
      (live : ledger.count? object = some count) : Step ledger (ledger.afterPut object count)
  | free {ledger : RefLedger ο w} {object : ο} {count : BitVec w}
    (done : ledger.count? object = some 0)
      (wasPut : .put object count ∈ ledger.events) : Step ledger (ledger.afterFree object)
  /-- An object is destroyed and puts the reference it holds. -/
  | drop {ledger : RefLedger ο w} {object target : ο} {count last : BitVec w}
      (done : ledger.count? object = some 0) (wasPut : .put object last ∈ ledger.events)
      (live : ledger.count? target = some count) (apart : object ≠ target) :
      Step ledger { (ledger.afterPut target count).afterFree object with
        held := Function.update ledger.held target (ledger.held target - 1) }

/-- A ledger that starts without events, and one that it leads to. -/
structure Run (start ledger : RefLedger ο w) : Prop where
  fresh : start.events = []
  steps : Relation.ReflTransGen Step start ledger

theorem Step.grows {ledger next : RefLedger ο w} (step : Step ledger next) :
    ledger.events ⊆ next.events := by
  cases step with
  | put live => exact List.subset_append_left _ _
  | free done wasPut => exact List.subset_append_left _ _
  | drop done wasPut live apart =>
      exact List.Subset.trans (List.subset_append_left _ _) (List.subset_append_left _ _)

/-- Events are never taken back. -/
theorem steps_grow {ledger next : RefLedger ο w} (steps : Relation.ReflTransGen Step ledger next) :
    ledger.events ⊆ next.events := by
  induction steps with
  | refl => exact List.Subset.refl _
  | tail _ step ih => exact List.Subset.trans ih step.grows

section About

open RefEvent

variable {events : List (RefEvent ο w)} {object other : ο} {count : BitVec w}

theorem about_append (more : List (RefEvent ο w)) :
    about object (events ++ more) = about object events ++ about object more :=
  List.filter_append ..

theorem about_put_self : about object [RefEvent.put object count] = [.put object count] := by
  simp [about, RefEvent.object]

theorem about_free_self :
    about object [(RefEvent.free object : RefEvent ο w)] = [.free object] := by
  simp [about, RefEvent.object]

theorem about_put_other (apart : other ≠ object) :
    about object [RefEvent.put other count] = [] := by
  simp [about, RefEvent.object, apart]

theorem about_free_other (apart : other ≠ object) :
    about object [(RefEvent.free other : RefEvent ο w)] = [] := by
  simp [about, RefEvent.object, apart]

theorem mem_of_mem_about {event : RefEvent ο w} (member : event ∈ about object events) :
    event ∈ events :=
  (List.mem_filter.mp member).1

end About

/-- An object exists, with the counter that its last put left, or it was released. -/
def Settled (ledger : RefLedger ο w) (object : ο) : Prop :=
  (∃ count, ledger.count? object = some count ∧ .free object ∉ ledger.events ∧
    ∀ last earlier, RefEvent.about object ledger.events = earlier ++ [last] →
      last = .put object (count + 1)) ∨
    ledger.count? object = none ∧ RefEvent.Released ledger.events object

section Settled

open RefEvent

variable {ledger : RefLedger ο w} {object query : ο} {count : BitVec w}

/-- A put of a live object leaves every object settled. -/
theorem Settled.afterPut (settled : ledger.Settled query)
    (live : ledger.count? object = some count) :
    (ledger.afterPut object count).Settled query := by
  by_cases same : object = query
  · subst same
    rcases settled with ⟨_, -, unfreed, -⟩ | ⟨gone, -⟩
    · refine .inl ⟨count - 1, Function.update_self .., ?_, ?_⟩
      · intro member
        rcases List.mem_append.mp member with earlier | last
        · exact unfreed earlier
        · cases List.mem_singleton.mp last
      · intro last earlier isLast
        change about object (ledger.events ++ [.put object count]) = _ at isLast
        rw [about_append, about_put_self] at isLast
        rw [BitVec.sub_add_cancel]
        exact (List.append_singleton_inj.mp isLast).2.symm
    · cases gone.symm.trans live
  · have events :
      about query (ledger.afterPut object count).events = about query ledger.events := by
      change about query (ledger.events ++ [.put object count]) = _
      rw [about_append, about_put_other same, List.append_nil]
    have counter : (ledger.afterPut object count).count? query = ledger.count? query :=
      Function.update_of_ne (Ne.symm same) ..
    rcases settled with ⟨its, isLive, unfreed, last⟩ | ⟨gone, released⟩
    · refine .inl ⟨its, counter.trans isLive, ?_, ?_⟩
      · intro member
        rcases List.mem_append.mp member with earlier | added
        · exact unfreed earlier
        · cases List.mem_singleton.mp added
      · rw [events]
        exact last
    · refine .inr ⟨counter.trans gone, ?_⟩
      rw [Released, events]
      exact released

/-- So does freeing an object after its last put. -/
theorem Settled.afterFree (settled : ledger.Settled query) (done : ledger.count? object = some 0)
    (wasPut : .put object count ∈ ledger.events) : (ledger.afterFree object).Settled query := by
  by_cases same : object = query
  · subst same
    rcases settled with ⟨zero, live, unfreed, last⟩ | ⟨gone, -⟩
    · cases live.symm.trans done
      have nonempty : about object ledger.events ≠ [] :=
        List.ne_nil_of_mem (List.mem_filter.mpr ⟨wasPut, decide_eq_true rfl⟩)
      have ends := (List.dropLast_append_getLast nonempty).symm
      have isOne := last _ _ ends
      rw [zero_add] at isOne
      refine .inr ⟨Function.update_self .., (about object ledger.events).dropLast, ?_, ?_⟩
      · change about object (ledger.events ++ [.free object]) = _
        rw [about_append, about_free_self]
        calc about object ledger.events ++ [.free object]
          _ = ((about object ledger.events).dropLast ++ [.put object 1]) ++ [.free object] := by
            rw [← isOne, ← ends]
          _ = _ := List.append_assoc ..
      · intro member
        exact unfreed (mem_of_mem_about (List.mem_of_mem_dropLast member))
    · cases gone.symm.trans done
  · have events : about query (ledger.afterFree object).events = about query ledger.events := by
      change about query (ledger.events ++ [.free object]) = _
      rw [about_append, about_free_other same, List.append_nil]
    have counter : (ledger.afterFree object).count? query = ledger.count? query :=
      Function.update_of_ne (Ne.symm same) ..
    rcases settled with ⟨its, isLive, unfreed, last⟩ | ⟨gone, released⟩
    · refine .inl ⟨its, counter.trans isLive, ?_, ?_⟩
      · intro member
        rcases List.mem_append.mp member with earlier | added
        · exact unfreed earlier
        · injection List.mem_singleton.mp added with isObject
          exact same isObject.symm
      · rw [events]
        exact last
    · refine .inr ⟨counter.trans gone, ?_⟩
      rw [Released, events]
      exact released

end Settled

section Run

open RefEvent

variable {start ledger : RefLedger ο w} {object target : ο} {count : BitVec w}

/-- What does not depend on the references held, and is kept by puts and by destructions,
holds after every run. -/
theorem Run.induct (property : RefLedger ο w → Prop) (run : Run start ledger)
    (holds : property start)
    (put : ∀ ledger object count, property ledger → ledger.count? object = some count →
      property (ledger.afterPut object count))
    (free : ∀ ledger object count, property ledger → ledger.count? object = some 0 →
      .put object count ∈ ledger.events → property (ledger.afterFree object))
    (held : ∀ ledger held, property ledger → property { ledger with held := held }) :
    property ledger := by
  obtain ⟨-, steps⟩ := run
  induction steps with
  | refl => exact holds
  | tail _ step ih =>
      cases step with
      | put live => exact put _ _ _ ih live
      | free done wasPut => exact free _ _ _ ih done wasPut
      | drop done wasPut live apart =>
          apply held
          refine free _ _ _ (put _ _ _ ih live) ?_ (List.mem_append_left _ wasPut)
          exact (Function.update_of_ne apart ..).trans done

/-- What was there at the start and is gone was released. -/
theorem Run.released (run : Run start ledger) (live : start.count? object = some count)
    (gone : ledger.count? object = none) : Released ledger.events object := by
  have settled : ledger.Settled object := by
    refine run.induct (Settled · object) ?_ (fun _ _ _ before live => before.afterPut live)
      (fun _ _ _ before done wasPut => before.afterFree done wasPut) fun _ _ before => before
    refine .inl ⟨count, live, ?_, ?_⟩
    · rw [run.fresh]
      exact List.not_mem_nil
    · intro last earlier events
      rw [run.fresh] at events
      exact absurd events.symm (List.append_ne_nil_of_right_ne_nil earlier nofun)
  rcases settled with ⟨its, isLive, -⟩ | ⟨-, released⟩
  · cases gone.symm.trans isLive
  · exact released

/-- Objects only go. -/
theorem Run.was_live (run : Run start ledger) (live : ledger.count? object = some count) :
    ∃ first, start.count? object = some first := by
  refine run.induct (fun ledger => ∀ count, ledger.count? object = some count →
    ∃ first, start.count? object = some first) (fun count live => ⟨count, live⟩) ?_ ?_
    (fun _ _ before => before) count live
  · intro ledger other its before otherLive last isLast
    by_cases same : object = other
    · subst same
      exact before its otherLive
    · exact before last ((Function.update_of_ne same ..).symm.trans isLast)
  · intro ledger other its before done _ last isLast
    by_cases same : object = other
    · subst same
      exact before 0 done
    · exact before last ((Function.update_of_ne same ..).symm.trans isLast)

/-- The first put of an object finds the counter that it had at the start. -/
def Opened (object : ο) (count : BitVec w) (ledger : RefLedger ο w) : Prop :=
  ((∀ its, .put object its ∉ ledger.events) ∧ ledger.count? object = some count) ∨
    .put object count ∈ ledger.events

/-- The first put of an object that is there at the start finds the counter that it had
then. -/
theorem Run.opened (run : Run start ledger) (live : start.count? object = some count) :
    ledger.Opened object count := by
  refine run.induct (Opened object count) ?_ ?_ ?_ fun _ _ before => before
  · left
    rw [run.fresh]
    exact ⟨fun _ => List.not_mem_nil, live⟩
  · rintro ledger other its (⟨unput, isLive⟩ | opened) otherLive
    · by_cases same : other = object
      · subst same
        cases isLive.symm.trans otherLive
        exact .inr (List.mem_append_right _ (List.mem_singleton_self _))
      · refine .inl ⟨?_, (Function.update_of_ne (Ne.symm same) ..).trans isLive⟩
        intro its' member
        rcases List.mem_append.mp member with earlier | added
        · exact unput its' earlier
        · injection List.mem_singleton.mp added with isOther
          exact same isOther.symm
    · exact .inr (List.mem_append_left _ opened)
  · rintro ledger other its (⟨unput, isLive⟩ | opened) done wasPut
    · have apart : object ≠ other := by
        rintro rfl
        exact unput its wasPut
      refine .inl ⟨?_, (Function.update_of_ne apart ..).trans isLive⟩
      intro its' member
      rcases List.mem_append.mp member with earlier | added
      · exact unput its' earlier
      · cases List.mem_singleton.mp added
    · exact .inr (List.mem_append_left _ opened)

/-- No counter is decremented that is zero already. -/
def Positive (ledger : RefLedger ο w) : Prop :=
  ∀ object count, .put object count ∈ ledger.events → count ≠ 0

theorem puts_afterPut_self (ledger : RefLedger ο w) (object : ο) (count : BitVec w) :
    puts object (ledger.afterPut object count).events = puts object ledger.events + 1 := by
  change puts object (ledger.events ++ [.put object count]) = _
  rw [puts, about_append, about_put_self, List.countP_append]
  rfl

theorem puts_afterPut_other (ledger : RefLedger ο w) {other : ο} (apart : other ≠ object)
    (count : BitVec w) :
    puts object (ledger.afterPut other count).events = puts object ledger.events := by
  change puts object (ledger.events ++ [.put other count]) = _
  rw [puts, about_append, about_put_other apart, List.append_nil, puts]

theorem puts_afterFree (ledger : RefLedger ο w) (object other : ο) :
    puts object (ledger.afterFree other).events = puts object ledger.events := by
  change puts object (ledger.events ++ [.free other]) = _
  by_cases same : other = object
  · subst same
    rw [puts, about_append, about_free_self, List.countP_append, puts]
    simp
  · rw [puts, about_append, about_free_other same, List.append_nil, puts]

theorem toNat_sub_one (nonzero : count ≠ 0) : (count - 1).toNat = count.toNat - 1 := by
  have positive : 0 < count.toNat := Nat.pos_of_ne_zero fun zero =>
    nonzero (BitVec.eq_of_toNat_eq zero)
  have one : (1 : BitVec w).toNat = 1 := 
    Nat.mod_eq_of_lt (Nat.lt_of_le_of_lt positive count.isLt)
  rw [BitVec.toNat_sub_of_le (by rw [BitVec.le_def, one]; exact positive), one]

/-- As long as no counter is decremented below zero, it tells how many of the references
that it counted at the start were put. -/
theorem Run.counted (run : Run start ledger) (live : start.count? object = some count) :
    ledger.Positive → ∀ its, ledger.count? object = some its →
      its.toNat + puts object ledger.events = count.toNat := by
  refine run.induct (fun ledger => ledger.Positive → ∀ its, ledger.count? object = some its →
      its.toNat + puts object ledger.events = count.toNat) ?_ ?_ ?_ fun _ _ before => before
  · intro _ its isLive
    cases live.symm.trans isLive
    rw [run.fresh]
    rfl
  · intro ledger other its before otherLive positive last isLast
    have earlier := before fun object count member => positive object count
      (List.mem_append_left _ member)
    by_cases same : other = object
    · subst same
      have nonzero := positive other its (List.mem_append_right _ (List.mem_singleton_self _))
      cases (Function.update_self ..).symm.trans isLast
      rw [puts_afterPut_self, ← earlier its otherLive, toNat_sub_one nonzero]
      have : its.toNat ≠ 0 := fun zero => nonzero (BitVec.eq_of_toNat_eq zero)
      omega
    · rw [puts_afterPut_other ledger same]
      exact earlier last ((Function.update_of_ne (Ne.symm same) ..).symm.trans isLast)
  · intro ledger other its before done wasPut positive last isLast
    have earlier := before fun object count member => positive object count
      (List.mem_append_left _ member)
    rw [puts_afterFree]
    by_cases same : object = other
    · subst same
      cases (Function.update_self ..).symm.trans isLast
    · exact earlier last ((Function.update_of_ne same ..).symm.trans isLast)

/-- A reference is held no longer only if it was put. -/
theorem Run.held_le (run : Run start ledger) (object : ο) :
    start.held object ≤ ledger.held object + puts object ledger.events := by
  obtain ⟨-, steps⟩ := run
  induction steps with
  | refl => exact Nat.le_add_right _ _
  | @tail ledger _ _ step ih =>
      refine ih.trans ?_
      have monotone : ∀ other count,
          puts object ledger.events ≤ puts object (ledger.afterPut other count).events := by
        intro other count
        by_cases same : other = object
        · subst same
          rw [puts_afterPut_self]
          exact Nat.le_add_right _ 1
        · exact (puts_afterPut_other ledger same count).ge
      cases step with
      | @put other count live => exact Nat.add_le_add_left (monotone other count) _
      | @free other count done wasPut =>
          rw [puts_afterFree]
          exact Nat.le_refl _
      | @drop other target count last done wasPut live apart =>
          change _ ≤ Function.update ledger.held target (ledger.held target - 1) object +
            puts object ((ledger.afterPut target count).afterFree other).events
          rw [puts_afterFree]
          by_cases same : target = object
          · subst same
            rw [Function.update_self, puts_afterPut_self]
            omega
          · rw [Function.update_of_ne (Ne.symm same), puts_afterPut_other ledger same count]

end Run

end RefLedger

end DwBpf
