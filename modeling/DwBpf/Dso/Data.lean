import DwBpf.Basic
import DwBpf.Foundation.SearchTree
import DwBpf.Foundation.Run

/-! # The data of a dso

`dso.c`, the part that opens a dso's file and reads it through a tree of cached
chunks. The operating system's answers during one call are an argument, as are
the chunks that other readers link while this one is between its lookup and its
insertion. Allocated chunks are numbered, and the chunks passed to `free` are
recorded next to the fields of the source.
-/

namespace DwBpf

/-- `DSO__DATA_CACHE_SIZE`. -/
abbrev dataCacheSize : Nat := 4096

/-- `offset & DSO__DATA_CACHE_MASK`. -/
def chunkOffset (offset : U64) : U64 := offset &&& ~~~(BitVec.ofNat 64 (dataCacheSize - 1))

/-- What a read of one chunk delivers: at most as many bytes as were asked for. -/
structure ChunkBytes where
  bytes : List Byte
  length_le : bytes.length ≤ dataCacheSize
  deriving DecidableEq, Repr

/-- `struct dso_cache`, with the number of the allocation that holds it. -/
structure DsoCache extends ChunkBytes where
  id : Nat
  offset : U64
  deriving DecidableEq, Repr

namespace DsoCache

def size (cache : DsoCache) : U64 := BitVec.ofNat 64 cache.bytes.length

/-- The comparisons of the two descents through the cache, for the offset sought. -/
def steer (offset : U64) (cache : DsoCache) : Ordering :=
  let last := cache.offset + BitVec.ofNat 64 dataCacheSize
  if offset < cache.offset then .lt
  else if last ≤ offset then .gt
  else .eq

end DsoCache

/-- `enum dso_data_status`. -/
inductive DsoDataStatus where
  | error
  | unknown
  | ok
  deriving DecidableEq, Repr

/-- The `data` field of `struct dso`; a descriptor that is not open is negative
in the source. `allocated` counts the chunks allocated so far, which are
numbered in that order, and `freed` lists those passed to `free`. -/
structure DsoData where
  cache : Tree DsoCache
  fd : Option Nat
  status : DsoDataStatus
  fileSize : U64
  ehFrameHdrOffset : U64
  allocated : Nat
  freed : List Nat
  deriving DecidableEq

/-- The data of a dso as `dso__new` leaves it. -/
def DsoData.new : DsoData where
  cache := .nil
  fd := none
  status := .unknown
  fileSize := 0
  ehFrameHdrOffset := 0
  allocated := 0
  freed := []

/-- The result of one `pread`. -/
inductive Pread where
  | failed
  | read (chunk : ChunkBytes)
  deriving DecidableEq, Repr

/-- A chunk that another reader has read at `offset`. -/
structure OtherRead extends ChunkBytes where
  offset : U64
  deriving DecidableEq, Repr

/-- The answers a call gets from the operating system about one dso's file: of
`stat`, `open` and `fstat`, of `pread` in each turn of the read loop, and the
chunks other readers link in that turn before this reader does. -/
structure Os where
  regular : Bool
  opened : Option Nat
  errno : Nat
  fstat : Option U64
  pread : Nat → U64 → Pread
  others : Nat → List OtherRead

def doOpen (os : Os) : Except Fault (Option Nat) :=
  match os.opened with
  | some fd => .ok (some fd)
  | none => .error (.assertion .fileOpened)

def openDso (os : Os) : Except Fault (Option Nat) :=
  if os.regular then doOpen os else .error (.assertion .regularFile)

def tryToOpenDso (os : Os) (data : DsoData) : Except Fault DsoData :=
  match data.fd with
  | some _ => .ok data
  | none => do
      let fd ← openDso os
      return { data with fd := fd, status := if fd.isSome then .ok else .error }

/-- `dso__data_get_fd`. -/
def DsoData.getFd (os : Os) (data : DsoData) : Except Fault (Option Nat × DsoData) :=
  if data.status = .error then .ok (none, data)
  else do
    let data ← tryToOpenDso os data
    return (data.fd, data)

namespace DsoData

/-- `free` of a chunk. -/
def free (data : DsoData) (id : Nat) : DsoData := { data with freed := id :: data.freed }

end DsoData

namespace DsoCache

/-- `dso_cache__find`. -/
def find (data : DsoData) (offset : U64) : Option DsoCache := data.cache.find? (steer offset)

/-- `dso_cache__insert`: the chunk already there, or none after linking. -/
def insert (data : DsoData) (new : DsoCache) : Option DsoCache × DsoData :=
  match data.cache.locate (steer new.offset) [] with
  | .inl cache => (some cache, data)
  | .inr path => (none, { data with cache := Tree.link path new })

/-- `dso_cache__memcpy`: the number of bytes to copy and those of them that the
chunk holds. -/
def memcpy (cache : DsoCache) (offset size : U64) : U64 × List Byte :=
  let cacheOffset := offset - cache.offset
  let left := cache.size - cacheOffset
  let cacheSize := if left < size then left else size
  (cacheSize, (cache.bytes.drop cacheOffset.toNat).take cacheSize.toNat)

/-- Another reader links the chunk it has read, or drops it when there is one. -/
def insertOther (data : DsoData) (other : OtherRead) : DsoData :=
  let cache : DsoCache := { other.toChunkBytes with id := data.allocated, offset := other.offset }
  match insert { data with allocated := data.allocated + 1 } cache with
  | (some _, data) => data.free cache.id
  | (none, data) => data

/-- `dso_cache__read`, in turn `turn` of the read loop. -/
def read (os : Os) (turn : Nat) (data : DsoData) (offset size : U64) :
    Except Fault (Int × List Byte × DsoData) := do
  let id := data.allocated
  let data ← tryToOpenDso os { data with allocated := id + 1 }
  if data.fd = none then
    return (-os.errno, [], { data with status := .error }.free id)
  match os.pread turn (chunkOffset offset) with
  | .failed => return (-1, [], data.free id)
  | .read chunk =>
      if chunk.bytes = [] then return (0, [], data.free id)
      let data := (os.others turn).foldl insertOther data
      let new : DsoCache := { chunk with id := id, offset := chunkOffset offset }
      let (cache, data) := match insert data new with
        | (some old, data) => (old, data.free id)
        | (none, data) => (new, data)
      let (copied, bytes) := memcpy cache offset size
      let ret := copied.toInt
      return (ret, bytes, if ret ≤ 0 then data.free cache.id else data)

end DsoCache

def dsoCacheRead (os : Os) (turn : Nat) (data : DsoData) (offset size : U64) :
    Except Fault (Int × List Byte × DsoData) :=
  match DsoCache.find data offset with
  | some cache =>
      let (copied, bytes) := cache.memcpy offset size
      .ok (copied.toInt, bytes, data)
  | none => DsoCache.read os turn data offset size

/-- The loop of `cached_read`, with `r` bytes read so far, which are `written`.
A requested `size` is a non-negative `ssize_t`. -/
def cachedRead (os : Os) (turn : Nat) (data : DsoData) (offset : U64) (size : Nat)
    (r : Nat) (written : List Byte) : Except Fault (Int × List Byte × DsoData) :=
  match dsoCacheRead os turn data offset (BitVec.ofNat 64 size) with
  | .error fault => .error fault
  | .ok (ret, bytes, data) =>
      if ret < 0 then .ok (ret, written, data)
      else if ret = 0 then .ok (r, written, data)
      else if size < ret.toNat then .error (.assertion .readWithinSize)
      else if size - ret.toNat = 0 then .ok (r + ret.toNat, written ++ bytes, data)
      else cachedRead os (turn + 1) data (offset + BitVec.ofNat 64 ret.toNat) (size - ret.toNat)
        (r + ret.toNat) (written ++ bytes)
termination_by size

/-- `data_file_size`: whether it succeeded. -/
def dataFileSize (os : Os) (data : DsoData) : Except Fault (Bool × DsoData) :=
  if data.fileSize ≠ 0 then .ok (true, data)
  else if data.status = .error then .ok (false, data)
  else do
    let data ← tryToOpenDso os data
    if data.fd = none then return (false, { data with status := .error })
    match os.fstat with
    | none => return (false, { data with status := .error })
    | some size => return (true, { data with fileSize := size })

def dataReadOffset (os : Os) (data : DsoData) (offset : U64) (size : Nat) :
    Except Fault (Int × List Byte × DsoData) := do
  let (known, data) ← dataFileSize os data
  if ¬ known then return (-1, [], data)
  if data.fileSize < offset then return (-1, [], data)
  if offset + BitVec.ofNat 64 size < offset then return (-1, [], data)
  cachedRead os 0 data offset size 0 []

/-- `dso__data_read_offset`: the returned count, the bytes written to the front
of the buffer, and the data afterwards. -/
def DsoData.readOffset (os : Os) (data : DsoData) (offset : U64) (size : Nat) :
    Except Fault (Int × List Byte × DsoData) :=
  if data.status = .error then .ok (-1, [], data)
  else dataReadOffset os data offset size

end DwBpf
