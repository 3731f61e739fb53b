import DwBpf.Dso.Transparency
import DwBpf.Event.Callbacks

/-! # The memory that libunwind reads

`access_mem` answers from the snapshot of the stack or from the file of the map
around the address. Its comparison with the end of the snapshot leaves out the
last word, which is looked for in the files (`DwBpf.stack_words_iff`). A read that
the file does not satisfy is reported with the status 1, which is neither zero nor
negative (`DwBpf.reads_reported_iff`).
-/

namespace DwBpf

variable {uc : UnwindCtx} {addr : U64} {os : Os} {store : Store} {info : UnwindInfo}

namespace UnwindCtx

/-- The whole word at the address lies in the snapshot. -/
def Inside (uc : UnwindCtx) (addr : U64) : Prop :=
  (uc.uregs .sp).toNat ≤ addr.toNat ∧
    addr.toNat + 8 ≤ (uc.uregs .sp).toNat + uc.size.toNat

/-- The word ends where the snapshot ends. -/
def Last (uc : UnwindCtx) (addr : U64) : Prop :=
  (uc.uregs .sp).toNat ≤ addr.toNat ∧
    addr.toNat + 8 = (uc.uregs .sp).toNat + uc.size.toNat

theorem toNat_signExtend_size (sized : 0 < uc.size.toInt) :
    (uc.size.signExtend 64).toNat = uc.size.toNat := by
  have positive : uc.size.msb = false := by
    rw [BitVec.msb_eq_toInt, decide_eq_false_iff_not]
    omega
  rw [BitVec.signExtend_eq_setWidth_of_msb_false positive, BitVec.toNat_setWidth_of_le (by decide)]

theorem wraps_iff (addr : U64) : addr + 8 < addr ↔ 2 ^ 64 ≤ addr.toNat + 8 := by
  rw [BitVec.lt_def, BitVec.toNat_add]
  have := addr.isLt
  have : (8 : U64).toNat = 8 := rfl
  omega

/-- The comparisons of `access_mem`, without the word that ends with the snapshot. -/
theorem snapshots_iff (sized : 0 < uc.size.toInt)
    (fits : (uc.uregs .sp).toNat + uc.size.toNat < 2 ^ 64) (short : addr.toNat + 8 < 2 ^ 64) :
    uc.snapshots (uc.uregs .sp) addr = true ↔ uc.Inside addr ∧ ¬ uc.Last addr := by
  rw [snapshots, Bool.and_eq_true, decide_eq_true_eq, decide_eq_true_eq, BitVec.le_def,
    BitVec.lt_def, BitVec.toNat_add, BitVec.toNat_add, toNat_signExtend_size sized, Inside, Last]
  have : (8 : U64).toNat = 8 := rfl
  omega

/-- What `access_mem` takes from the snapshot is inside, also where the end of the
snapshot would wrap around. -/
theorem inside_of_snapshots (sized : 0 < uc.size.toInt) (noWrap : ¬ addr + 8 < addr)
    (snapshot : uc.snapshots (uc.uregs .sp) addr = true) : uc.Inside addr := by
  rw [snapshots, Bool.and_eq_true, decide_eq_true_eq, decide_eq_true_eq, BitVec.le_def,
    BitVec.lt_def, BitVec.toNat_add, BitVec.toNat_add, toNat_signExtend_size sized] at snapshot
  rw [wraps_iff] at noWrap
  have := uc.size.isLt
  have := (uc.uregs .sp).isLt
  have : (8 : U64).toNat = 8 := rfl
  rw [Inside]
  omega

end UnwindCtx

/-- A word in the snapshot is delivered from there, and any other whose end does
not wrap around is asked of the files. -/
structure ReadsStack (os : Os) (store : Store) (info : UnwindInfo) (addr : U64) : Prop where
  inside : info.uc.Inside addr → ∃ value,
    info.uc.word (addr - info.uc.uregs .sp).toNat = .ok value ∧
      accessMem os store info addr false = .ok ((0, some value), store)
  outside : ¬ info.uc.Inside addr → addr.toNat + 8 < 2 ^ 64 →
    accessMem os store info addr false = (do
      let ((status, value), store) ← accessDsoMem os store info addr
      if status = 0 then return ((0, some value), store) else return ((status, some 0), store))

theorem accessMem_of_snapshots (sized : 0 < info.uc.size.toInt) (noWrap : ¬ addr + 8 < addr)
    (snapshot : info.uc.snapshots (info.uc.uregs .sp) addr = true) :
    accessMem os store info addr false = (do
      let value ← info.uc.word (addr - info.uc.uregs .sp).toNat
      return ((0, some value), store)) := by
  rw [accessMem, if_neg (UnwindCtx.reads_of_sized sized), regValue_sp, ok_bind, if_neg noWrap,
    if_pos snapshot]

theorem accessMem_of_not_snapshots (sized : 0 < info.uc.size.toInt) (noWrap : ¬ addr + 8 < addr)
    (missed : ¬ info.uc.snapshots (info.uc.uregs .sp) addr = true) :
    accessMem os store info addr false = (do
      let ((status, value), store) ← accessDsoMem os store info addr
      if status = 0 then return ((0, some value), store)
      else return ((status, some 0), store)) := by
  rw [accessMem, if_neg (UnwindCtx.reads_of_sized sized), regValue_sp, ok_bind, if_neg noWrap,
    if_neg missed]

/-- An address in no map. -/
theorem accessMem_of_unmapped (sized : 0 < info.uc.size.toInt) (noWrap : ¬ addr + 8 < addr)
    (missed : ¬ info.uc.snapshots (info.uc.uregs .sp) addr = true)
    (unmapped : findMap store info addr = .ok none) :
    accessMem os store info addr false = .ok ((-1, some 0), store) := by
  rw [accessMem_of_not_snapshots sized noWrap missed, accessDsoMem, unmapped]
  rfl

/-- Every word but the last is read as it should be. -/
theorem readsStack_of (sized : 0 < info.uc.size.toInt)
    (fits : (info.uc.uregs .sp).toNat + info.uc.size.toNat < 2 ^ 64)
    (notLast : ¬ info.uc.Last addr)
    (captured : info.uc.Inside addr → (addr - info.uc.uregs .sp).toNat + 8 ≤ stackSize) :
    ReadsStack os store info addr where
  inside := by
    intro inside
    have short : addr.toNat + 8 < 2 ^ 64 := Nat.lt_of_le_of_lt inside.2 fits
    have noWrap : ¬ addr + 8 < addr := by rw [UnwindCtx.wraps_iff]; omega
    obtain ⟨value, word⟩ := UnwindCtx.word_ok (captured inside)
    refine ⟨value, word, ?_⟩
    rw [accessMem_of_snapshots sized noWrap
      ((UnwindCtx.snapshots_iff sized fits short).mpr ⟨inside, notLast⟩), word]
    rfl
  outside := by
    intro outside short
    have noWrap : ¬ addr + 8 < addr := by rw [UnwindCtx.wraps_iff]; omega
    apply accessMem_of_not_snapshots sized noWrap
    rw [UnwindCtx.snapshots_iff sized fits short]
    exact fun snapshot => outside snapshot.1

/-- A process of which nothing is known but its leader. -/
theorem unmapped_of_sample :
    ∃ replies machine thread, runAll Machine.step [.sample 1 1] Machine.new =
      .ok (replies, machine) ∧ machine.Holds ⟨0⟩ thread ∧
      ∀ uc addr, findMap machine.store ⟨uc, ⟨0⟩⟩ addr = .ok none := by
  refine ⟨_, _, _, rfl, ⟨⟨1, ?_⟩, rfl⟩, fun uc addr => rfl⟩
  decide

/-- In all states that runs reach, and for all their threads, the word at an address
is read as it should be exactly when it is not the last word of the snapshot and,
if it is in the snapshot, also in the array that holds it. -/
theorem stack_words_iff (uc : UnwindCtx) (sized : 0 < uc.size.toInt)
    (fits : (uc.uregs .sp).toNat + uc.size.toNat < 2 ^ 64) (addr : U64) :
    (∀ calls replies machine th thread os,
      runAll Machine.step calls Machine.new = .ok (replies, machine) → machine.Holds th thread →
      ReadsStack os machine.store ⟨uc, th⟩ addr) ↔
      ¬ uc.Last addr ∧
        (uc.Inside addr → (addr - uc.uregs .sp).toNat + 8 ≤ stackSize) := by
  constructor
  · intro reads
    obtain ⟨replies, machine, thread, ran, held, unmapped⟩ := unmapped_of_sample
    have stack := reads _ _ _ _ _ Os.absent ran held
    constructor
    · intro last
      have inside : uc.Inside addr := ⟨last.1, Nat.le_of_eq last.2⟩
      have short : addr.toNat + 8 < 2 ^ 64 := Nat.lt_of_le_of_lt inside.2 fits
      obtain ⟨value, -, read⟩ := stack.inside inside
      rw [accessMem_of_unmapped sized (by rw [UnwindCtx.wraps_iff]; omega) ?_ (unmapped uc addr)]
        at read
      · cases read
      · rw [UnwindCtx.snapshots_iff sized fits short]
        exact fun snapshot => snapshot.2 last
    · intro inside
      obtain ⟨value, word, -⟩ := stack.inside inside
      by_contra beyond
      rw [UnwindCtx.word, if_neg beyond] at word
      cases word
  · rintro ⟨notLast, captured⟩ calls replies machine th thread os - -
    exact readsStack_of sized fits notLast captured

/-- A sample of two words of the stack. -/
def UnwindCtx.twoWords : UnwindCtx :=
  ⟨0, 1, 1, fun _ => 0x7000, fun _ => 0, 16, fun index => BitVec.ofNat 8 index.val⟩

/-- The first word is read. -/
theorem stack_words_first : UnwindCtx.twoWords.Inside 0x7000 ∧
    ∀ calls replies machine th thread os,
      runAll Machine.step calls Machine.new = .ok (replies, machine) → machine.Holds th thread →
      ReadsStack os machine.store ⟨.twoWords, th⟩ 0x7000 := by
  have inside : UnwindCtx.twoWords.Inside 0x7000 := ⟨by decide, by decide⟩
  have notLast : ¬ UnwindCtx.twoWords.Last 0x7000 := fun last => absurd last.2 (by decide)
  exact ⟨inside, (stack_words_iff .twoWords (by decide) (by decide) 0x7000).mpr
    ⟨notLast, fun _ => by decide⟩⟩

/-- The second word is not. -/
theorem last_word_not_read :
    ∃ replies machine thread, runAll Machine.step [.sample 1 1] Machine.new =
      .ok (replies, machine) ∧ machine.Holds ⟨0⟩ thread ∧ UnwindCtx.twoWords.Inside 0x7008 ∧
      accessMem .absent machine.store ⟨.twoWords, ⟨0⟩⟩ 0x7008 false =
        .ok ((-1, some 0), machine.store) ∧
      ¬ ReadsStack .absent machine.store ⟨.twoWords, ⟨0⟩⟩ 0x7008 := by
  obtain ⟨replies, machine, thread, ran, held, unmapped⟩ := unmapped_of_sample
  have inside : UnwindCtx.twoWords.Inside 0x7008 := ⟨by decide, by decide⟩
  have read : accessMem .absent machine.store ⟨.twoWords, ⟨0⟩⟩ 0x7008 false =
      .ok ((-1, some 0), machine.store) :=
    accessMem_of_unmapped (by decide) (by decide) (by decide) (unmapped .twoWords 0x7008)
  refine ⟨replies, machine, thread, ran, held, inside, read, fun reads => ?_⟩
  obtain ⟨value, -, other⟩ := reads.inside inside
  cases read.symm.trans other

/-- A read of the dso's file delivers all of its bytes. -/
def DsoData.Delivers (os : Os) (data : DsoData) (offset : U64) (size : Nat) : Prop :=
  ∃ bytes next, data.readOffset os offset size = .ok ((size : Int), bytes, next)

/-- Where the operating system serves a file, that is so for bytes of the file. -/
theorem DsoData.delivers_iff {file : File} {data : DsoData} (serves : os.Serves file)
    (serving : Serving file data) (offset : U64) {size : Nat} (positive : 1 ≤ size)
    (small : size < 2 ^ 63) :
    data.Delivers os offset size ↔ offset.toNat + size ≤ file.size := by
  obtain ⟨next, read, -⟩ := readOffset_of_cached serves serving offset small
  rw [Delivers, read, ← file.read_fst_eq_iff offset positive]
  constructor
  · rintro ⟨bytes, last, same⟩
    injection same with same
    exact congrArg Prod.fst same
  · intro count
    exact ⟨_, next, by rw [count]⟩

/-- The status is zero or negative, and negative if the address is in a map whose
file does not deliver a word there. -/
def ReportsFailure (os : Os) (store : Store) (info : UnwindInfo) (addr : U64) : Prop :=
  ∃ status value next, accessMem os store info addr false = .ok ((status, value), next) ∧
    status ≤ 0 ∧ ∀ map dso, findMap store info addr = .ok (some map) →
      store.dsos.get? map.dso = some dso → ¬ dso.data.Delivers os (map.mapIp addr) 8 → status < 0

/-- The status of a read from the files: no map, a whole word, or less. -/
theorem accessDsoMem_eq (ready : store.Ready info)
    (openable : ∀ map dso, findMap store info addr = .ok (some map) →
      store.dsos.get? map.dso = some dso → dso.data.Openable os) :
    (findMap store info addr = .ok none ∧
      accessDsoMem os store info addr = .ok ((-1, 0), store)) ∨
    ∃ map dso value next, findMap store info addr = .ok (some map) ∧
      store.dsos.get? map.dso = some dso ∧
      ((dso.data.Delivers os (map.mapIp addr) 8 ∧
          accessDsoMem os store info addr = .ok ((0, value), next)) ∨
        (¬ dso.data.Delivers os (map.mapIp addr) 8 ∧
          accessDsoMem os store info addr = .ok ((1, 0), next))) := by
  rcases ready.findMap addr with missed | ⟨map, dso, found, live⟩
  · left
    rw [accessDsoMem, missed]
    exact ⟨rfl, rfl⟩
  · right
    have small : 8 < 2 ^ 63 := by decide
    obtain ⟨count, bytes, data, read, -, -⟩ := DsoData.readOffset_ok (ready.dormant _ dso live)
      (openable map dso found live) (map.mapIp addr) small
    have delivers : dso.data.Delivers os (map.mapIp addr) 8 ↔ count = 8 := by
      rw [DsoData.Delivers, read]
      constructor
      · rintro ⟨bytes', next, same⟩
        injection same with same
        exact congrArg Prod.fst same
      · rintro rfl
        exact ⟨bytes, data, rfl⟩
    have access : accessDsoMem os store info addr =
        if count = 8 then .ok ((0, littleEndian 64 bytes),
          store.modifyDso map.dso fun dso => { dso with data := data })
        else .ok ((1, 0), store.modifyDso map.dso fun dso => { dso with data := data }) := by
      rw [accessDsoMem, found, ok_bind]
      dsimp only
      rw [Store.withData, deref_of_get? live, ok_bind, DsoData.readBytes, read]
      rfl
    refine ⟨map, dso, littleEndian 64 bytes,
      store.modifyDso map.dso fun dso => { dso with data := data }, found, live, ?_⟩
    rw [delivers]
    by_cases whole : count = 8
    · rw [if_pos whole] at access
      exact .inl ⟨whole, access⟩
    · rw [if_neg whole] at access
      exact .inr ⟨whole, access⟩

/-- The status 1 is all that can go wrong, and it stands for a word that the file does not
deliver. -/
theorem reportsFailure_iff (ready : store.Ready info) (sized : 0 < info.uc.size.toInt)
    (outside : ¬ info.uc.Inside addr)
    (openable : ∀ map dso, findMap store info addr = .ok (some map) →
      store.dsos.get? map.dso = some dso → dso.data.Openable os) :
    ReportsFailure os store info addr ↔
      2 ^ 64 ≤ addr.toNat + 8 ∨ ∀ map dso, findMap store info addr = .ok (some map) →
        store.dsos.get? map.dso = some dso → dso.data.Delivers os (map.mapIp addr) 8 := by
  by_cases wraps : addr + 8 < addr
  · refine iff_of_true ⟨negEinval, none, store, ?_, by decide, fun _ _ _ _ _ => by decide⟩
      (.inl ((UnwindCtx.wraps_iff addr).mp wraps))
    rw [accessMem, if_neg (UnwindCtx.reads_of_sized sized), regValue_sp, ok_bind, if_pos wraps]
    rfl
  · have missed : ¬ info.uc.snapshots (info.uc.uregs .sp) addr = true :=
      fun snapshot => outside (UnwindCtx.inside_of_snapshots sized wraps snapshot)
    have read : accessMem os store info addr false = _ :=
      accessMem_of_not_snapshots sized wraps missed
    rw [or_iff_right (fun long => wraps ((UnwindCtx.wraps_iff addr).mpr long))]
    rcases accessDsoMem_eq ready openable with ⟨unmapped, access⟩ |
      ⟨map, dso, value, next, found, live, ⟨delivers, access⟩ | ⟨fails, access⟩⟩
    · rw [access] at read
      refine iff_of_true ⟨-1, some 0, store, read, by decide, fun _ _ _ _ _ => by decide⟩ ?_
      intro map dso found
      cases unmapped.symm.trans found
    · rw [access] at read
      have same : ∀ map' dso', findMap store info addr = .ok (some map') →
          store.dsos.get? map'.dso = some dso' → dso'.data.Delivers os (map'.mapIp addr) 8 := by
        intro map' dso' found' live'
        cases found.symm.trans found'
        cases live.symm.trans live'
        exact delivers
      refine iff_of_true ⟨0, some value, next, read, by decide, ?_⟩ same
      intro map' dso' found' live' fails
      exact absurd (same map' dso' found' live') fails
    · rw [access] at read
      refine iff_of_false ?_ fun delivers => fails (delivers map dso found live)
      rintro ⟨status, value, next', other, nonpositive, -⟩
      cases read.symm.trans other
      exact absurd nonpositive (by decide)

/-- Where the operating system serves the file of the map around the address, it delivers
the word exactly when the word ends within the file. -/
theorem delivers_mapped_iff (ready : store.Ready info) {file : File} (serves : os.Serves file)
    (serving : ∀ map dso, findMap store info addr = .ok (some map) →
      store.dsos.get? map.dso = some dso → Serving file dso.data) :
    (∀ map dso, findMap store info addr = .ok (some map) →
      store.dsos.get? map.dso = some dso → dso.data.Delivers os (map.mapIp addr) 8) ↔
      ∀ map, findMap store info addr = .ok (some map) →
        (map.mapIp addr).toNat + 8 ≤ file.size := by
  have size : ∀ map dso, findMap store info addr = .ok (some map) →
      store.dsos.get? map.dso = some dso →
      (dso.data.Delivers os (map.mapIp addr) 8 ↔ (map.mapIp addr).toNat + 8 ≤ file.size) :=
    fun map dso found live =>
      DsoData.delivers_iff serves (serving map dso found live) _ (by decide) (by decide)
  constructor
  · intro delivers map found
    rcases ready.findMap addr with missed | ⟨map', dso, found', live⟩
    · cases missed.symm.trans found
    · cases found'.symm.trans found
      exact (size map dso found live).mp (delivers map dso found live)
  · intro within map dso found live
    exact (size map dso found live).mpr (within map found)

/-- In every state that a run reaches, also between the requests of one walk: a read
outside the snapshot reports its failure exactly when the end of the word wraps
around, the address is in no map, or the file of its map delivers the word. Of a file
that the operating system serves these are the words that end within it. -/
theorem reads_reported_iff {calls : List Call} {replies : List Reply} {machine : Machine}
    (ran : runAll Machine.step calls Machine.new = .ok (replies, machine)) {th : Ref Thread}
    {thread : Thread} (held : machine.Holds th thread) {uc : UnwindCtx} {requests : List Request}
    {answers : List Answer} {store : Store}
    (walked : runAll (Request.step ⟨uc, th⟩) requests machine.store = .ok (answers, store))
    (sized : 0 < uc.size.toInt) {addr : U64} (outside : ¬ uc.Inside addr) {os : Os}
    (openable : ∀ map dso, findMap store ⟨uc, th⟩ addr = .ok (some map) →
      store.dsos.get? map.dso = some dso → dso.data.Openable os) :
    (ReportsFailure os store ⟨uc, th⟩ addr ↔
      2 ^ 64 ≤ addr.toNat + 8 ∨ ∀ map dso, findMap store ⟨uc, th⟩ addr = .ok (some map) →
        store.dsos.get? map.dso = some dso → dso.data.Delivers os (map.mapIp addr) 8) ∧
    ∀ file : File, os.Serves file →
      (∀ map dso, findMap store ⟨uc, th⟩ addr = .ok (some map) →
        store.dsos.get? map.dso = some dso → Serving file dso.data) →
      (ReportsFailure os store ⟨uc, th⟩ addr ↔
        2 ^ 64 ≤ addr.toNat + 8 ∨ ∀ map, findMap store ⟨uc, th⟩ addr = .ok (some map) →
          (map.mapIp addr).toNat + 8 ≤ file.size) := by
  have ready := Machine.ready_of_run ran held walked
  have exact_iff := reportsFailure_iff ready sized outside openable
  refine ⟨exact_iff, fun file serves serving => ?_⟩
  rw [exact_iff, delivers_mapped_iff ready serves serving]

set_option maxRecDepth 2000 in
/-- The first word of `/bin/ls`, whose file was never opened. -/
theorem mapped_of_mapLs :
    ∃ replies machine thread map dso, runAll Machine.step [.mapLs 1 1] Machine.new =
      .ok (replies, machine) ∧ machine.Holds ⟨0⟩ thread ∧
      (∀ uc, findMap machine.store ⟨uc, ⟨0⟩⟩ 0x400000 = .ok (some map)) ∧
      machine.store.dsos.get? map.dso = some dso ∧ dso.data = .new ∧ map.mapIp 0x400000 = 0 := by
  refine ⟨_, _, _, _, _, rfl, ⟨⟨1, ?_⟩, rfl⟩, fun uc => rfl, rfl, rfl, rfl⟩
  decide

theorem serving_new (file : File) : Serving file .new := ⟨cached_new file, by decide⟩

/-- A file of eight bytes. -/
def eightBytes : File := ⟨[0x7f, 0x45, 0x4c, 0x46, 2, 1, 1, 0], by decide⟩

theorem reads_reported_eightBytes :
    ∃ replies machine thread, runAll Machine.step [.mapLs 1 1] Machine.new =
      .ok (replies, machine) ∧ machine.Holds ⟨0⟩ thread ∧
      ReportsFailure eightBytes.served machine.store ⟨.twoWords, ⟨0⟩⟩ 0x400000 := by
  obtain ⟨replies, machine, thread, map, dso, ran, held, found, live, new, start⟩ := mapped_of_mapLs
  have outside : ¬ UnwindCtx.twoWords.Inside 0x400000 := fun inside => absurd inside.2 (by decide)
  have walked : runAll (Request.step ⟨.twoWords, ⟨0⟩⟩) [] machine.store =
      .ok ([], machine.store) := rfl
  have openable : ∀ map dso, findMap machine.store ⟨.twoWords, ⟨0⟩⟩ 0x400000 = .ok (some map) →
      machine.store.dsos.get? map.dso = some dso → dso.data.Openable eightBytes.served :=
    fun _ _ _ _ => .inr ⟨rfl, nofun⟩
  have serving : ∀ map dso, findMap machine.store ⟨.twoWords, ⟨0⟩⟩ 0x400000 = .ok (some map) →
      machine.store.dsos.get? map.dso = some dso → Serving eightBytes dso.data := by
    intro map' dso' found' live'
    cases (found .twoWords).symm.trans found'
    cases live.symm.trans live'
    exact new ▸ serving_new eightBytes
  refine ⟨replies, machine, thread, ran, held, ?_⟩
  apply ((reads_reported_iff ran held walked (by decide) outside openable).2 eightBytes
    eightBytes.served_serves serving).mpr
  refine .inr fun map' found' => ?_
  cases (found .twoWords).symm.trans found'
  rw [start]
  decide

/-- Of a file of three bytes the word cannot be read, and the status is 1. -/
theorem short_file_not_reported :
    ∃ replies machine thread next, runAll Machine.step [.mapLs 1 1] Machine.new =
      .ok (replies, machine) ∧ machine.Holds ⟨0⟩ thread ∧
      accessMem threeBytes.served machine.store ⟨.twoWords, ⟨0⟩⟩ 0x400000 false =
        .ok ((1, some 0), next) ∧
      ¬ ReportsFailure threeBytes.served machine.store ⟨.twoWords, ⟨0⟩⟩ 0x400000 := by
  obtain ⟨replies, machine, thread, map, dso, ran, held, found, live, new, start⟩ := mapped_of_mapLs
  have walked : runAll (Request.step ⟨.twoWords, ⟨0⟩⟩) [] machine.store =
      .ok ([], machine.store) := rfl
  have ready := Machine.ready_of_run ran held walked
  have openable : ∀ map dso, findMap machine.store ⟨.twoWords, ⟨0⟩⟩ 0x400000 = .ok (some map) →
      machine.store.dsos.get? map.dso = some dso → dso.data.Openable threeBytes.served :=
    fun _ _ _ _ => .inr ⟨rfl, nofun⟩
  have serving : Serving threeBytes dso.data := new ▸ serving_new threeBytes
  have short : ¬ dso.data.Delivers threeBytes.served (map.mapIp 0x400000) 8 := by
    rw [start, DsoData.delivers_iff threeBytes.served_serves serving 0 (by decide) (by decide)]
    decide
  have missed : ¬ UnwindCtx.twoWords.snapshots (UnwindCtx.twoWords.uregs .sp) 0x400000 = true := by
    decide
  have read : accessMem threeBytes.served machine.store ⟨.twoWords, ⟨0⟩⟩ 0x400000 false = _ :=
    accessMem_of_not_snapshots (by decide) (by decide) missed
  rcases accessDsoMem_eq ready openable with ⟨unmapped, -⟩ |
    ⟨map', dso', value, next, found', live', ⟨delivers, -⟩ | ⟨-, access⟩⟩
  · cases unmapped.symm.trans (found .twoWords)
  · cases (found .twoWords).symm.trans found'
    cases live.symm.trans live'
    exact absurd delivers short
  · rw [access] at read
    refine ⟨replies, machine, thread, next, ran, held, read, ?_⟩
    rintro ⟨status, value, next', other, nonpositive, -⟩
    cases read.symm.trans other
    exact absurd nonpositive (by decide)

end DwBpf
