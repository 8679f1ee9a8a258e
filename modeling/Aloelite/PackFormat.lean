import Aloelite.StoreTables

/-! The pack blob codec of `pack.py`: a MsgPack map `{fmt, ver, nodes}` with one
map for each placement. MsgPack itself is third-party code and a parameter. -/
namespace Aloelite

open Fallible

/-- A decoded MsgPack value; a float stands as its `repr`, `other` is every kind the pack
format does not use (timestamps, extensions). -/
inductive Value where
  | nil
  | bool (b : Bool)
  | int (i : Int)
  | str (s : String)
  | bin (b : Bytes)
  | float (repr : String)
  | array (items : List Value)
  | map (items : List (Value × Value))
  | other

namespace Value

/-- `dict.get` on a map whose keys are strings; the last item of a key counts. -/
def get (items : List (Value × Value)) (key : String) : Value :=
  match items.reverse.find? (fun kv => match kv.1 with | .str s => s = key | _ => false) with
  | some kv => kv.2
  | none => .nil

/-- What the encoder is given: no `other`, maps keyed by distinct strings. -/
inductive Plain : Value → Prop
  | nil : Plain .nil
  | int (i : Int) : Plain (.int i)
  | str (s : String) : Plain (.str s)
  | bin (b : Bytes) : Plain (.bin b)
  | array (items : List Value) (h : ∀ v ∈ items, Plain v) : Plain (.array items)
  | map (items : List (String × Value)) (hkeys : (items.map Prod.fst).Nodup)
      (h : ∀ kv ∈ items, Plain kv.2) :
      Plain (.map (items.map (fun kv => (.str kv.1, kv.2))))

mutual

/-- Equality of values, as a computation. -/
def same : Value → Value → Bool
  | .nil, .nil => true
  | .bool a, .bool b => a = b
  | .int a, .int b => a = b
  | .str a, .str b => a = b
  | .bin a, .bin b => a = b
  | .float a, .float b => a = b
  | .array as, .array bs => sameItems as bs
  | .map as, .map bs => samePairs as bs
  | .other, .other => true
  | _, _ => false

def sameItems : List Value → List Value → Bool
  | [], [] => true
  | a :: as, b :: bs => same a b && sameItems as bs
  | _, _ => false

def samePairs : List (Value × Value) → List (Value × Value) → Bool
  | [], [] => true
  | (a, x) :: as, (b, y) :: bs => same a b && same x y && samePairs as bs
  | _, _ => false

end

mutual

theorem eq_of_same : ∀ {a b : Value}, same a b = true → a = b
  | .nil, b, h => by cases b <;> simp_all [same]
  | .bool _, b, h => by cases b <;> simp_all [same]
  | .int _, b, h => by cases b <;> simp_all [same]
  | .str _, b, h => by cases b <;> simp_all [same]
  | .bin _, b, h => by cases b <;> simp_all [same]
  | .float _, b, h => by cases b <;> simp_all [same]
  | .array as, .array bs, h => by rw [eq_of_sameItems (show sameItems as bs = true from h)]
  | .map as, .map bs, h => by rw [eq_of_samePairs (show samePairs as bs = true from h)]
  | .other, b, h => by cases b <;> simp_all [same]

theorem eq_of_sameItems : ∀ {as bs : List Value}, sameItems as bs = true → as = bs
  | [], bs, h => by cases bs <;> simp_all [sameItems]
  | a :: as, [], h => by simp [sameItems] at h
  | a :: as, b :: bs, h => by
    rw [sameItems, Bool.and_eq_true] at h
    rw [eq_of_same h.1, eq_of_sameItems h.2]

theorem eq_of_samePairs : ∀ {as bs : List (Value × Value)}, samePairs as bs = true → as = bs
  | [], bs, h => by cases bs <;> simp_all [samePairs]
  | a :: as, [], h => by simp [samePairs] at h
  | (a, x) :: as, (b, y) :: bs, h => by
    rw [samePairs, Bool.and_eq_true, Bool.and_eq_true] at h
    rw [eq_of_same h.1.1, eq_of_same h.1.2, eq_of_samePairs h.2]

end

/-- `json.dumps`, and `jsonb` after it: no binary data, no extensions, texts as keys, and
`depth` levels at most. -/
def jsonable : ℕ → Value → Bool
  | depth + 1, .array items => items.all (jsonable depth)
  | depth + 1, .map items =>
    items.all (fun kv => (match kv.1 with | .str _ => true | _ => false) && jsonable depth kv.2)
  | _, .nil | _, .bool _ | _, .int _ | _, .str _ | _, .float _ => true
  | _, _ => false

end Value

/-- JSON_MAX_DEPTH of SQLite. -/
def jsonMaxDepth : ℕ := 1000

/-- `msgpack.packb` and `msgpack.unpackb`. Packing may raise (an integer or a
length out of range) and so may unpacking; what was packed unpacks to itself. -/
structure Msgpack where
  packb : Value → Option Bytes
  unpackb : Bytes → Option Value
  unpackb_packb : ∀ v b, v.Plain → packb v = some b → unpackb b = some v

/-- A codec that refuses everything, for runs that pack nothing. -/
def Msgpack.refusing : Msgpack where
  packb _ := none
  unpackb _ := none
  unpackb_packb := fun _ _ _ h => by cases h

/-- A codec that knows one document and its bytes, for runs that pack it. -/
def Msgpack.knowing (doc : Value) (blob : Bytes) : Msgpack where
  packb v := if v.same doc then some blob else none
  unpackb b := if b = blob then some doc else none
  unpackb_packb := by
    intro v b _ h
    split at h
    · rename_i hsame
      rw [if_pos (Option.some.inj h).symm, Value.eq_of_same hsame]
    · cases h

namespace NodeType

def value : NodeType → String
  | container => "container"
  | entry => "entry"
  | symlink => "symlink"
  | fifo => "fifo"
  | socket => "socket"

/-- `NodeType(value)`; `none` is its ValueError. -/
def ofValue (s : String) : Option NodeType :=
  [container, entry, symlink, fifo, socket].find? (fun t => t.value = s)

@[simp] theorem ofValue_value (t : NodeType) : ofValue t.value = some t := by
  cases t <;> rfl

end NodeType

/-- One entry of `nodes`, its optional keys absent or null as `none`. -/
structure PackNode where
  p : Int
  t : String
  n : String
  c : Option Int := none
  m : Option Int := none
  u : Option Int := none
  g : Option Int := none
  o : Option Int := none
  x : Option (List (Value × Value)) := none
  xa : Option (List (String × Bytes)) := none
  rk : Option Int := none
  d : Option Bytes := none

namespace PackNode

/-- One optional key of the emitted map. -/
def field (key : String) (v : Option Value) : List (Value × Value) :=
  match v with
  | some v => [(.str key, v)]
  | none => []

/-- The map a writer emits, its keys in the order of `NODE_KEYS`. -/
def toValue (pn : PackNode) : Value :=
  .map ([(.str "p", .int pn.p), (.str "t", .str pn.t), (.str "n", .str pn.n)] ++
    field "c" (pn.c.map .int) ++ field "m" (pn.m.map .int) ++ field "u" (pn.u.map .int) ++
    field "g" (pn.g.map .int) ++ field "o" (pn.o.map .int) ++ field "x" (pn.x.map .map) ++
    field "xa" (pn.xa.map (fun xs => .map (xs.map (fun kv => (.str kv.1, .bin kv.2))))) ++
    field "rk" (pn.rk.map .int) ++ field "d" (pn.d.map .bin))

/-- An optional integer of `_well_formed`; the outer `none` is malformed. -/
def optInt : Value → Option (Option Int)
  | .nil => some none
  | .int i => some (some i)
  | _ => none

def optMap : Value → Option (Option (List (Value × Value)))
  | .nil => some none
  | .map items => some (some items)
  | _ => none

def strBin : Value × Value → Option (String × Bytes)
  | (.str s, .bin b) => some (s, b)
  | _ => none

def optXattrs : Value → Option (Option (List (String × Bytes)))
  | .nil => some none
  | .map items => (items.mapM strBin).map some
  | _ => none

def optBin : Value → Option (Option Bytes)
  | .nil => some none
  | .bin b => some (some b)
  | _ => none

def reqInt : Value → Option Int
  | .int i => some i
  | _ => none

def reqStr : Value → Option String
  | .str s => some s
  | _ => none

/-- `_well_formed`, and the fields `unpack` then reads. Unknown keys are
ignored. -/
def ofValue : Value → Option PackNode
  | .map items => do
    let p ← reqInt (Value.get items "p")
    let t ← reqStr (Value.get items "t")
    let n ← reqStr (Value.get items "n")
    let c ← optInt (Value.get items "c")
    let m ← optInt (Value.get items "m")
    let u ← optInt (Value.get items "u")
    let g ← optInt (Value.get items "g")
    let o ← optInt (Value.get items "o")
    let rk ← optInt (Value.get items "rk")
    let x ← optMap (Value.get items "x")
    let xa ← optXattrs (Value.get items "xa")
    let d ← optBin (Value.get items "d")
    return { p, t, n, c, m, u, g, o, x, xa, rk, d }
  | _ => none

end PackNode

def packFmt : String := "aloefs.pack"
def packVer : Int := 2

/-- The document around the nodes. -/
def packDocument (nodes : List PackNode) : Value :=
  .map [(.str "fmt", .str packFmt), (.str "ver", .int packVer),
    (.str "nodes", .array (nodes.map PackNode.toValue))]

/-- `pack.encode` -/
def encodePack (M : Msgpack) (nodes : List PackNode) : Option Bytes := M.packb (packDocument nodes)

/-- `pack.decode`: the format, then the version gate, then every node. -/
def decodePack (M : Msgpack) (blob : Bytes) : Except FsError (List PackNode) := do
  let doc ← orRaise (M.unpackb blob) .corrupt
  let items ← orRaise (match doc with | .map items => some items | _ => none) .corrupt
  refuse (PackNode.reqStr (Value.get items "fmt") ≠ some packFmt) .corrupt
  let ver ← orRaise (PackNode.reqInt (Value.get items "ver")) .corrupt
  refuse (ver < 1) .corrupt
  refuse (packVer < ver) .unsupported
  let nodes ← orRaise
    (match Value.get items "nodes" with | .array nodes => some nodes | _ => none) .corrupt
  orRaise (nodes.mapM PackNode.ofValue) .corrupt

/-- A container `a` with one entry `x` of one byte, as `pack` collects it, and its
MsgPack bytes. -/
def sampleNodes : List PackNode :=
  [{ p := -1, t := "container", n := "a", c := some 0, m := some 0 },
    { p := 0, t := "entry", n := "x", c := some 0, m := some 0, d := some [7] }]

def sampleBlob : Bytes :=
  [131, 163, 102, 109, 116, 171, 97, 108, 111, 101, 102, 115, 46, 112, 97, 99, 107, 163, 118, 101,
    114, 2, 165, 110, 111, 100, 101, 115, 146, 133, 161, 112, 255, 161, 116, 169, 99, 111, 110, 116,
    97, 105, 110, 101, 114, 161, 110, 161, 97, 161, 99, 0, 161, 109, 0, 134, 161, 112, 0, 161, 116,
    165, 101, 110, 116, 114, 121, 161, 110, 161, 120, 161, 99, 0, 161, 109, 0, 161, 100, 196, 1, 7]

def Msgpack.sample : Msgpack := .knowing (packDocument sampleNodes) sampleBlob

end Aloelite
