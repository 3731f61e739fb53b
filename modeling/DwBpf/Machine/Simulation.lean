import DwBpf.Machine.Findnew

/-! # Machines with different tables in step

The functions of `DwBpf.Machine.Findnew` and of the public interface touch the
table of threads through a lookup only. Two machines with the same objects whose
lookups agree therefore agree on all of them. What the objects have to keep in
between, so that a relation of the tables survives, is `DwBpf.Store.Keeps`: the
linked threads stay, with their tids.
-/

namespace DwBpf

/-- Every linked thread stays linked, under its tid. -/
def Store.Keeps (store next : Store) : Prop :=
  ∀ ref thread, store.threads.get? ref = some thread → thread.node = .tree →
    ∃ kept, next.threads.get? ref = some kept ∧ kept.tid = thread.tid ∧ kept.node = .tree

variable {store next last : Store} {th leader : Ref Thread}

theorem Store.Keeps.of_threads_eq (same : next.threads = store.threads) : store.Keeps next := by
  intro ref thread live linked
  exact ⟨thread, by rw [same, live], rfl, linked⟩

theorem Store.Keeps.trans (first : store.Keeps next) (second : next.Keeps last) :
    store.Keeps last := by
  intro ref thread live linked
  obtain ⟨kept, keptLive, sameTid, keptLinked⟩ := first ref thread live linked
  obtain ⟨final, finalLive, finalTid, finalLinked⟩ := second ref kept keptLive keptLinked
  exact ⟨final, finalLive, finalTid.trans sameTid, finalLinked⟩

theorem Store.keeps_modifyThread {change : Thread → Thread}
    (tid : ∀ thread, (change thread).tid = thread.tid)
    (node : ∀ thread, (change thread).node = thread.node) :
    store.Keeps (store.modifyThread th change) := by
  intro ref thread live linked
  refine ⟨_, Heap.get?_modify_eq_some.mpr ⟨thread, live, rfl⟩, ?_⟩
  split
  · exact ⟨tid thread, (node thread).trans linked⟩
  · exact ⟨rfl, linked⟩

theorem Dso.threads_of_put {dso : Ref Dso} (ran : Dso.put store dso = .ok next) :
    next.threads = store.threads := by
  obtain ⟨_, -, done⟩ := bind_eq_ok_iff.mp ran
  cases done
  rfl

theorem Map.threads_of_delete {map : Ref Map} (ran : Map.delete store map = .ok next) :
    next.threads = store.threads := by
  obtain ⟨object, -, rest⟩ := bind_eq_ok_iff.mp ran
  split at rest
  · cases rest
  · obtain ⟨middle, put, done⟩ := bind_eq_ok_iff.mp rest
    cases done
    rw [← Dso.threads_of_put put]

theorem Map.threads_listDel {map : Ref Map} (listed : Option Nat) :
    (Map.listDel store map listed).threads = store.threads := by
  cases listed with
  | none => rfl
  | some owner => rfl

theorem Map.threads_of_put {map : Ref Map} (ran : Map.put store map = .ok next) :
    next.threads = store.threads := by
  obtain ⟨object, -, rest⟩ := bind_eq_ok_iff.mp ran
  split at rest
  · rw [Map.threads_of_delete rest, Map.threads_listDel]
    rfl
  · cases rest
    rfl

theorem Maps.threads_of_purge {maps : Ref Maps} {entries : List (Ref Map)}
    (ran : Maps.purge maps entries store = .ok next) : next.threads = store.threads := by
  induction entries generalizing store with
  | nil => cases ran; rfl
  | cons pos rest ih =>
      obtain ⟨middle, put, later⟩ := bind_eq_ok_iff.mp ran
      rw [ih later, Map.threads_of_put put]
      rfl

/-- The put of a maps object touches no thread. -/
theorem Maps.threads_of_put {maps : Option (Ref Maps)} (ran : Maps.put store maps = .ok next) :
    next.threads = store.threads := by
  cases maps with
  | none => cases ran; rfl
  | some maps =>
      obtain ⟨object, -, rest⟩ := bind_eq_ok_iff.mp ran
      split at rest
      · obtain ⟨stored, -, rest⟩ := bind_eq_ok_iff.mp rest
        obtain ⟨middle, purged, done⟩ := bind_eq_ok_iff.mp rest
        cases done
        rw [Maps.threads_of_purge purged]
        rfl
      · cases rest
        rfl

theorem Maps.threads_of_get {maps : Option (Ref Maps)} (ran : Maps.get store maps = .ok next) :
    next.threads = store.threads := by
  cases maps with
  | none => cases ran; rfl
  | some maps =>
      obtain ⟨_, -, done⟩ := bind_eq_ok_iff.mp ran
      cases done
      rfl

theorem Thread.keeps_of_get (ran : Thread.get store th = .ok next) : store.Keeps next := by
  obtain ⟨_, -, done⟩ := bind_eq_ok_iff.mp ran
  cases done
  exact Store.keeps_modifyThread (fun _ => rfl) fun _ => rfl

/-- Only a thread that left the table is ever destroyed. -/
theorem Thread.keeps_of_put (ran : Thread.put store th = .ok next) : store.Keeps next := by
  obtain ⟨thread, live, rest⟩ := bind_eq_ok_iff.mp ran
  rw [deref_eq_ok_iff] at live
  split at rest
  · split at rest
    · rename_i bucket dead
      obtain ⟨stored, -, rest⟩ := bind_eq_ok_iff.mp rest
      split at rest
      · cases rest
      · obtain ⟨middle, put, done⟩ := bind_eq_ok_iff.mp rest
        cases done
        have threads : middle.threads = (store.threads.modify th fun thread =>
            { thread with refcnt := thread.refcnt - 1 }).modify th fun thread =>
              { thread with node := .clear } := by
          rw [Maps.threads_of_put put]
          rfl
        intro ref kept wasLive linked
        have other : ref ≠ th := by
          rintro rfl
          obtain rfl : thread = kept := Option.some.inj (live.symm.trans wasLive)
          rw [dead] at linked
          cases linked
        refine ⟨kept, ?_, rfl, linked⟩
        rw [Heap.get?_free, if_neg other, threads, Heap.get?_modify_of_ne _ other,
          Heap.get?_modify_of_ne _ other, wasLive]
    · cases rest
  · cases rest
    exact Store.keeps_modifyThread (fun _ => rfl) fun _ => rfl

theorem Store.keeps_newMaps : store.Keeps (store.newMaps th) := by
  have allocated : store.Keeps { store with maps := store.maps.alloc Maps.new } :=
    .of_threads_eq rfl
  exact allocated.trans (keeps_modifyThread (fun _ => rfl) fun _ => rfl)

theorem putEmptyMaps_threads {maps : Option (Ref Maps)}
    (ran : putEmptyMaps store maps = .ok next) : next.threads = store.threads := by
  cases maps with
  | none => cases ran; rfl
  | some maps =>
      obtain ⟨object, -, rest⟩ := bind_eq_ok_iff.mp ran
      split at rest
      · exact Maps.threads_of_put rest
      · cases rest

theorem keeps_updateThreadMaps (ran : updateThreadMaps store th leader = .ok next) :
    store.Keeps next := by
  obtain ⟨found, -, ran⟩ := bind_eq_ok_iff.mp ran
  obtain ⟨again, -, rest⟩ := bind_eq_ok_iff.mp ran
  have led : store.Keeps (if found.maps = none then store.newMaps leader else store) := by
    split
    · exact Store.keeps_newMaps
    · exact .of_threads_eq rfl
  refine led.trans ?_
  split at rest
  · cases rest
  · rename_i maps _
    obtain ⟨thread, -, rest⟩ := bind_eq_ok_iff.mp rest
    split at rest
    · cases rest
      exact .of_threads_eq rfl
    · obtain ⟨dropped, put, rest⟩ := bind_eq_ok_iff.mp rest
      obtain ⟨shared, got, rest⟩ := bind_eq_ok_iff.mp rest
      have same : shared.threads = _ :=
        (Maps.threads_of_get got).trans (putEmptyMaps_threads put)
      refine (Store.Keeps.of_threads_eq same).trans (.trans ?_ (Thread.keeps_of_put rest))
      exact Store.keeps_modifyThread (fun _ => rfl) fun _ => rfl

theorem keeps_shareMaps (ran : shareMaps store th leader = .ok next) : store.Keeps next := by
  obtain ⟨found, -, rest⟩ := bind_eq_ok_iff.mp ran
  obtain ⟨shared, got, rest⟩ := bind_eq_ok_iff.mp rest
  refine (Store.Keeps.of_threads_eq (Maps.threads_of_get got)).trans
    (.trans ?_ (Thread.keeps_of_put rest))
  exact Store.keeps_modifyThread (fun _ => rfl) fun _ => rfl

section InStep

variable {τ τ' : Type}

/-- A result of related machines: the same value, and machines related again. -/
def Results (α : Type) (related : State τ → State τ' → Prop) (first : α × State τ)
    (second : α × State τ') : Prop :=
  first.1 = second.1 ∧ related first.2 second.2

/-- A relation of machines with the same objects under which lookups of leaders
agree. -/
structure InStep (related : State τ → State τ' → Prop) (lookup : Lookup τ) (lookup' : Lookup τ') :
    Prop where
  store : ∀ first second, related first second → first.store = second.store
  keeps : ∀ first second next, related first second → first.store.Keeps next →
    related ⟨next, first.table⟩ ⟨next, second.table⟩
  agree : ∀ first second tgid, related first second →
    Agree (Results (Option (Ref Thread)) related) (lookup first tgid tgid)
      (lookup' second tgid tgid)

variable {related : State τ → State τ' → Prop} {lookup : Lookup τ} {lookup' : Lookup τ'}
  {first : State τ} {second : State τ'}

/-- Lookups that agree make the move to a process agree. -/
theorem InStep.updateThreadTgid (inStep : InStep related lookup lookup')
    (relates : related first second) (th : Ref Thread) (tgid : Pid) :
    Agree related (updateThreadTgid lookup first th tgid)
      (updateThreadTgid lookup' second th tgid) := by
  have same := inStep.store first second relates
  unfold DwBpf.updateThreadTgid
  rw [← same]
  cases deref first.store.threads th with
  | error failure => rfl
  | ok thread =>
      simp only [ok_bind]
      split
      · exact relates
      · have moved : related
            (first.modifyThread th fun thread => { thread with tgid := tgid })
            (second.modifyThread th fun thread => { thread with tgid := tgid }) := by
          unfold State.modifyThread
          rw [← same]
          exact inStep.keeps _ _ _ relates (Store.keeps_modifyThread (fun _ => rfl) fun _ => rfl)
        split
        · exact moved
        · refine (inStep.agree _ _ tgid moved).bind ?_
          rintro ⟨found, next⟩ ⟨found', next'⟩ ⟨rfl, nextRelated⟩
          cases found with
          | none => rfl
          | some leader =>
              simp only [← inStep.store next next' nextRelated]
              cases ran : updateThreadMaps next.store th leader with
              | error failure => rfl
              | ok store =>
                  exact inStep.keeps _ _ _ nextRelated (keeps_updateThreadMaps ran)

theorem InStep.matched (inStep : InStep related lookup lookup') (relates : related first second)
    (th : Ref Thread) (tgid : Pid) :
    Agree (Results (Option (Ref Thread)) related) (matched lookup first th tgid)
      (matched lookup' second th tgid) := by
  refine (inStep.updateThreadTgid relates th tgid).bind ?_
  intro next next' nextRelated
  rw [← inStep.store next next' nextRelated]
  cases ran : Thread.get next.store th with
  | error failure => rfl
  | ok store => exact ⟨rfl, inStep.keeps _ _ _ nextRelated (Thread.keeps_of_get ran)⟩

/-- They make the maps that a leader has agree. -/
theorem InStep.leaderMaps (inStep : InStep related lookup lookup') (relates : related first second)
    (th : Ref Thread) (tgid tid : Pid) :
    Agree related (leaderMaps lookup first th tgid tid)
      (leaderMaps lookup' second th tgid tid) := by
  unfold DwBpf.leaderMaps
  split
  · simp only [← inStep.store first second relates]
    exact inStep.keeps _ _ _ relates Store.keeps_newMaps
  · refine (inStep.agree _ _ _ relates).bind ?_
    rintro ⟨found, next⟩ ⟨found', next'⟩ ⟨rfl, nextRelated⟩
    cases found with
    | none => exact nextRelated
    | some leader =>
        simp only [← inStep.store next next' nextRelated]
        cases ran : shareMaps next.store th leader with
        | error failure => rfl
        | ok store => exact inStep.keeps _ _ _ nextRelated (keeps_shareMaps ran)

theorem InStep.initMaps (inStep : InStep related lookup lookup') (relates : related first second)
    (th : Ref Thread) :
    Agree (Results Bool related) (Thread.initMaps lookup first th)
      (Thread.initMaps lookup' second th) := by
  unfold Thread.initMaps
  rw [← inStep.store first second relates]
  cases deref first.store.threads th with
  | error failure => rfl
  | ok thread =>
      refine (inStep.leaderMaps relates th thread.tgid thread.tid).bind ?_
      intro next next' nextRelated
      rw [← inStep.store next next' nextRelated]
      cases deref next.store.threads th with
      | error failure => rfl
      | ok thread => exact ⟨rfl, nextRelated⟩

end InStep

end DwBpf
