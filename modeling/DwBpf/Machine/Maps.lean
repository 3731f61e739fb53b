import DwBpf.Machine.Store
import Mathlib.Data.Char
import Mathlib.Data.List.Lex

/-! # Interned dsos, and the maps of a thread

The functions of `dso.c` that look a dso up by its long name or add it, and
those of `map.c` that create a map for an event, insert it into a thread's maps
and find the map of an address. Names are C strings without their terminator.
-/

namespace DwBpf

/-- `strcmp` of two strings. -/
def strcmp (first second : List Char) : Ordering := cmp first second

/-- `basename` of POSIX. -/
def basename (path : List Char) : List Char :=
  match path.reverse.dropWhile (· = '/') with
  | [] => if path = [] then ['.'] else ['/']
  | trimmed => (trimmed.takeWhile (· ≠ '/')).reverse

/-- The object `dso__new` allocates. -/
def Dso.new (name : List Char) : Dso where
  longName := name
  shortName := name
  refcnt := 1
  data := .new

/-- The comparisons of `__dso__findlink_by_longname`; a dso to be linked is told
apart from others of its long name by the short name. -/
def Dso.steer (store : Store) (dso : Option (Ref Dso)) (name : List Char) (this : Ref Dso) :
    Ordering :=
  match store.dsos.get? this with
  | none => .eq
  | some object =>
      match strcmp name object.longName, dso.bind store.dsos.get? with
      | .eq, some linked =>
          if dso = some this then .eq else strcmp linked.shortName object.shortName
      | order, _ => order

/-- `__dso__findlink_by_longname`, which links `dso` if it is given. -/
def Dso.findlinkByLongname (store : Store) (dso : Option (Ref Dso)) (name : List Char) :
    Except Fault (Option (Ref Dso) × Store) :=
  match store.dsosRoot.locate (Dso.steer store dso name) [] with
  | .inl this => do
      let _ ← deref store.dsos this
      return (if dso = none ∨ dso = some this then some this else none, store)
  | .inr path =>
      match dso with
      | none => .ok (none, store)
      | some linked => .ok (none, { store with dsosRoot := Tree.link path linked })

/-- `__dsos__find`. -/
def Dsos.find (store : Store) (name : List Char) (cmpShort : Bool) :
    Except Fault (Option (Ref Dso)) :=
  if cmpShort then
    .ok (store.dsosHead.find? fun pos =>
      (store.dsos.get? pos).any fun object => strcmp object.shortName name = .eq)
  else do
    let (found, _) ← Dso.findlinkByLongname store none name
    return found

/-- `__dsos__add`. -/
def Dsos.add (store : Store) (dso : Ref Dso) : Except Fault Store := do
  let store := { store with dsosHead := store.dsosHead ++ [dso] }
  let object ← deref store.dsos dso
  let (_, store) ← Dso.findlinkByLongname store (some dso) object.longName
  Dso.get store dso

/-- `dso__set_basename`. -/
def Dso.setBasename (store : Store) (dso : Ref Dso) : Store :=
  store.modifyDso dso fun object => { object with shortName := basename object.longName }

/-- `__dsos__addnew`. -/
def Dsos.addnew (store : Store) (name : List Char) : Except Fault (Ref Dso × Store) := do
  let dso := store.dsos.nextRef
  let store ← Dsos.add { store with dsos := store.dsos.alloc (Dso.new name) } dso
  let store ← Dso.put (Dso.setBasename store dso) dso
  return (dso, store)

/-- `dsos__findnew`. -/
def Dsos.findnew (store : Store) (name : List Char) : Except Fault (Ref Dso × Store) := do
  match ← Dsos.find store name false with
  | some dso => do
      let store ← Dso.get store dso
      return (dso, store)
  | none => do
      let (dso, store) ← Dsos.addnew store name
      let store ← Dso.get store dso
      return (dso, store)

/-- `struct mmap2_event`. -/
structure MmapEvent where
  tgid : Pid
  tid : Pid
  start : U64
  len : U64
  pgoff : U64
  maj : U32
  min : U32
  ino : U64
  inoGeneration : U64
  prot : U32
  flags : U32
  filename : List Char

/-- The fields `map__init` fills in from an event. -/
def Map.init (event : MmapEvent) (dso : Ref Dso) : Map where
  start := event.start
  stop := event.start + event.len
  pgoff := event.pgoff
  prot := event.prot
  flags := event.flags
  maj := event.maj
  min := event.min
  ino := event.ino
  inoGeneration := event.inoGeneration
  dso := dso
  listed := none
  linked := false
  refcnt := 1

/-- `map__new`. -/
def Map.new (store : Store) (event : MmapEvent) : Except Fault (Ref Map × Store) := do
  let (dso, store) ← Dsos.findnew store event.filename
  let store ← Dso.get store dso
  let map := store.mapObjs.nextRef
  let store ← Dso.put { store with mapObjs := store.mapObjs.alloc (Map.init event dso) } dso
  return (map, store)

/-- `map_ip`. -/
def Map.mapIp (map : Map) (ip : U64) : U64 := ip - map.start + map.pgoff

/-- The comparisons of `maps__find`. -/
def Maps.steer (store : Store) (ip : U64) (ref : Ref Map) : Ordering :=
  match store.mapObjs.get? ref with
  | none => .eq
  | some map => if ip < map.start then .lt else if map.stop ≤ ip then .gt else .eq

/-- `maps__find`. -/
def Maps.find (store : Store) (maps : Ref Maps) (ip : U64) : Except Fault (Option (Ref Map)) := do
  let object ← deref store.maps maps
  match object.entries.find? (Maps.steer store ip) with
  | none => return none
  | some map => do
      let _ ← deref store.mapObjs map
      return some map

/-- The comparisons of `__maps__insert`. -/
def Maps.steerInsert (store : Store) (ip : U64) (ref : Ref Map) : Ordering :=
  match store.mapObjs.get? ref with
  | none => .eq
  | some map => if ip < map.start then .lt else .gt

/-- `maps__insert`. -/
def Maps.insert (store : Store) (maps : Ref Maps) (ref : Ref Map) : Except Fault Store := do
  let object ← deref store.maps maps
  let map ← deref store.mapObjs ref
  match object.entries.locate (Maps.steerInsert store map.start) [] with
  | .inl _ => .error .dangling
  | .inr path =>
      let store := store.modifyMaps maps fun object =>
        { object with entries := Tree.link path ref, head := object.head ++ [ref] }
      Map.get (store.modifyMap ref fun map =>
        { map with listed := some maps.addr, linked := true }) ref

end DwBpf
