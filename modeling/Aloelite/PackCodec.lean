import Aloelite.PackFormat
import Mathlib.Data.List.Nodup

/-! The pack codec reads back what it wrote: every optional key is found again under its name,
and what the writer emits is a document that MsgPack keeps. -/
namespace Aloelite

open Fallible

variable {M : Msgpack} {items : List (Value × Value)} {key name : String} {v : Option Value}
  {pn : PackNode} {nodes : List PackNode} {blob : Bytes}

/-! ### Fields of a map -/

namespace Value

theorem get_append_field_of_ne (hne : name ≠ key) :
    get (items ++ PackNode.field name v) key = get items key := by
  cases v with
  | none => rw [PackNode.field, List.append_nil]
  | some v =>
    have hother : decide (name = key) = false := decide_eq_false hne
    simp only [get, PackNode.field, List.reverse_append, List.reverse_singleton,
      List.singleton_append, List.find?_cons, hother]

theorem get_append_field_self :
    get (items ++ PackNode.field key v) key = v.getD (get items key) := by
  cases v with
  | none => rw [PackNode.field, List.append_nil, Option.getD_none]
  | some v =>
    simp only [get, PackNode.field, List.reverse_append, List.reverse_singleton,
      List.singleton_append, List.find?_cons,
      decide_true, Option.getD_some]

end Value

namespace PackNode

@[simp] theorem optInt_getD (i : Option Int) : optInt ((i.map Value.int).getD .nil) = some i := by
  cases i <;> rfl

@[simp] theorem optMap_getD (x : Option (List (Value × Value))) :
    optMap ((x.map Value.map).getD .nil) = some x := by
  cases x <;> rfl

@[simp] theorem optBin_getD (d : Option Bytes) : optBin ((d.map Value.bin).getD .nil) = some d := by
  cases d <;> rfl

@[simp] theorem optXattrs_getD (xa : Option (List (String × Bytes))) :
    optXattrs ((xa.map
      (fun xs => Value.map (xs.map (fun kv => (Value.str kv.1, Value.bin kv.2))))).getD .nil) =
        some xa := by
  cases xa with
  | none => rfl
  | some xs =>
    have hback : (xs.map (fun kv => (Value.str kv.1, Value.bin kv.2))).mapM strBin = some xs := by
      induction xs with
      | nil => rfl
      | cons kv xs ih =>
        rw [List.map_cons, List.mapM_cons, ih]
        rfl
    show ((xs.map (fun kv => (Value.str kv.1, Value.bin kv.2))).mapM strBin).map some =
        some (some xs)
    rw [hback, Option.map_some]

/-- The three keys that every node has. -/
def required (pn : PackNode) : List (Value × Value) :=
  [(.str "p", .int pn.p), (.str "t", .str pn.t), (.str "n", .str pn.n)]

theorem get_required_of_ne (hp : key ≠ "p") (ht : key ≠ "t") (hn : key ≠ "n") :
    Value.get pn.required key = .nil := by
  simp [Value.get, required, Ne.symm hp, Ne.symm ht, Ne.symm hn]

/-- What the reader takes from the map of a node is the node. -/
theorem ofValue_toValue (pn : PackNode) : ofValue pn.toValue = some pn := by
  have hp : Value.get pn.required "p" = .int pn.p := rfl
  have ht : Value.get pn.required "t" = .str pn.t := rfl
  have hn : Value.get pn.required "n" = .str pn.n := rfl
  have hvalue : pn.toValue = .map (pn.required ++
    field "c" (pn.c.map .int) ++ field "m" (pn.m.map .int) ++ field "u" (pn.u.map .int) ++
    field "g" (pn.g.map .int) ++ field "o" (pn.o.map .int) ++ field "x" (pn.x.map .map) ++
    field "xa" (pn.xa.map (fun xs => .map (xs.map (fun kv => (.str kv.1, .bin kv.2))))) ++
    field "rk" (pn.rk.map .int) ++ field "d" (pn.d.map .bin)) := rfl
  rw [hvalue, ofValue]
  -- a key is found behind every other field, and in its own one
  simp (disch := decide) only [Value.get_append_field_of_ne, Value.get_append_field_self,
    get_required_of_ne, hp, ht, hn,
    optInt_getD, optMap_getD, optXattrs_getD, optBin_getD, reqInt, reqStr]
  rfl

theorem mapM_ofValue_toValue (nodes : List PackNode) :
    (nodes.map toValue).mapM ofValue = some nodes := by
  induction nodes with
  | nil => rfl
  | cons pn nodes ih =>
    rw [List.map_cons, List.mapM_cons, ofValue_toValue, ih]
    rfl

/-! ### What the writer emits -/

/-- A node as `pack` collects it: its metadata are texts under distinct keys, its attributes
have distinct names. -/
structure Tidy (pn : PackNode) : Prop where
  metadata : ∀ x ∈ pn.x, ∃ texts : List (String × String), (texts.map Prod.fst).Nodup ∧
    x = texts.map (fun kv => (.str kv.1, .str kv.2))
  xattrs : ∀ xa ∈ pn.xa, (xa.map Prod.fst).Nodup

/-- A map entry under a text. -/
def named (kv : String × Value) : Value × Value := (.str kv.1, kv.2)

/-- One optional key, by its name. -/
def optional (name : String) (v : Option Value) : List (String × Value) :=
  (v.map (fun v => (name, v))).toList

theorem field_eq (name : String) (v : Option Value) :
    field name v = (optional name v).map named := by cases v <;> rfl

theorem optional_sublist (name : String) (v : Option Value) :
    ((optional name v).map Prod.fst).Sublist [name] := by
  cases v with
  | none => exact List.nil_sublist _
  | some v => exact List.Sublist.refl _

theorem optional_plain (h : ∀ w ∈ v, w.Plain) : ∀ kv ∈ optional name v, kv.2.Plain := by
  intro kv hkv
  obtain ⟨w, hw, rfl⟩ := Option.map_eq_some_iff.mp (Option.mem_toList.mp hkv)
  exact h w hw

theorem optInt_plain (i : Option Int) : ∀ w ∈ i.map Value.int, w.Plain := by
  intro w hw
  obtain ⟨j, -, rfl⟩ := Option.map_eq_some_iff.mp hw
  exact .int j

theorem Tidy.plain (h : pn.Tidy) : pn.toValue.Plain := by
  let entries : List (String × Value) := [("p", .int pn.p), ("t", .str pn.t), ("n", .str pn.n)] ++
    optional "c" (pn.c.map .int) ++ optional "m" (pn.m.map .int) ++ optional "u" (pn.u.map .int) ++
    optional "g" (pn.g.map .int) ++ optional "o" (pn.o.map .int) ++ optional "x" (pn.x.map .map) ++
    optional "xa" (pn.xa.map (fun xs => .map (xs.map (fun kv => (.str kv.1, .bin kv.2))))) ++
    optional "rk" (pn.rk.map .int) ++ optional "d" (pn.d.map .bin)
  have hvalue : pn.toValue = .map (entries.map named) := by
    simp only [toValue, field_eq, entries, List.map_append]
    rfl
  rw [hvalue]
  -- the keys are some of the twelve, in order, so none stands twice
  have hkeys : (entries.map Prod.fst).Sublist (["p", "t", "n"] ++ ["c"] ++ ["m"] ++ ["u"] ++
      ["g"] ++ ["o"] ++ ["x"] ++ ["xa"] ++
      ["rk"] ++ ["d"]) := by
    simp only [entries, List.map_append]
    refine .append (.append
      (.append (.append (.append (.append (.append (.append (.append ?_ ?_) ?_) ?_) ?_) ?_) ?_) ?_)
        ?_) ?_
    · exact List.Sublist.refl _
    all_goals exact optional_sublist _ _
  refine .map entries (hkeys.nodup (by decide)) ?_
  have hx : ∀ w ∈ pn.x.map Value.map, w.Plain := by
    intro w hw
    obtain ⟨x, hx, rfl⟩ := Option.map_eq_some_iff.mp hw
    obtain ⟨texts, hnodup, rfl⟩ := h.metadata x hx
    have hmap : texts.map (fun kv => (Value.str kv.1, Value.str kv.2)) =
        (texts.map (fun kv => (kv.1, Value.str kv.2))).map (fun kv => (.str kv.1, kv.2)) := by
      rw [List.map_map]
      rfl
    rw [hmap]
    refine .map _ ?_ ?_
    · rw [List.map_map]
      exact hnodup
    · intro kv hkv
      obtain ⟨text, -, rfl⟩ := List.mem_map.mp hkv
      exact .str _
  have hxa : ∀ w ∈ pn.xa.map
      (fun xs => Value.map (xs.map (fun kv => (Value.str kv.1, Value.bin kv.2)))), w.Plain := by
    intro w hw
    obtain ⟨xs, hxs, rfl⟩ := Option.map_eq_some_iff.mp hw
    have hmap : xs.map (fun kv => (Value.str kv.1, Value.bin kv.2)) =
        (xs.map (fun kv => (kv.1, Value.bin kv.2))).map (fun kv => (.str kv.1, kv.2)) := by
      rw [List.map_map]
      rfl
    rw [hmap]
    refine .map _ ?_ ?_
    · rw [List.map_map]
      exact h.xattrs xs hxs
    · intro kv hkv
      obtain ⟨x, -, rfl⟩ := List.mem_map.mp hkv
      exact .bin _
  have hd : ∀ w ∈ pn.d.map Value.bin, w.Plain := by
    intro w hw
    obtain ⟨b, -, rfl⟩ := Option.map_eq_some_iff.mp hw
    exact .bin b
  have hints : ∀ i : Option Int, ∀ w ∈ i.map Value.int, w.Plain := optInt_plain
  simp only [entries, List.forall_mem_append]
  refine ⟨⟨⟨⟨⟨⟨⟨⟨⟨?_, ?_⟩, ?_⟩, ?_⟩, ?_⟩, ?_⟩, ?_⟩, ?_⟩, ?_⟩, ?_⟩
  · simp only [List.mem_cons, List.not_mem_nil, or_false, forall_eq_or_imp, forall_eq]
    exact ⟨.int _, .str _, .str _⟩
  · exact optional_plain (hints _)
  · exact optional_plain (hints _)
  · exact optional_plain (hints _)
  · exact optional_plain (hints _)
  · exact optional_plain (hints _)
  · exact optional_plain hx
  · exact optional_plain hxa
  · exact optional_plain (hints _)
  · exact optional_plain hd

end PackNode

theorem packDocument_plain (h : ∀ pn ∈ nodes, pn.Tidy) : (packDocument nodes).Plain := by
  have hkeys : (["fmt", "ver", "nodes"] : List String).Nodup := by decide
  refine .map [("fmt", .str packFmt), ("ver", .int packVer),
    ("nodes", .array (nodes.map PackNode.toValue))] hkeys ?_
  simp only [List.mem_cons, List.not_mem_nil, or_false, forall_eq_or_imp, forall_eq]
  refine ⟨.str _, .int _, .array _ ?_⟩
  intro w hw
  obtain ⟨pn, hpn, rfl⟩ := List.mem_map.mp hw
  exact (h pn hpn).plain

/-- A blob decodes to the nodes it was encoded from. -/
theorem decodePack_encodePack (h : ∀ pn ∈ nodes, pn.Tidy) (hblob : encodePack M nodes = some blob) :
    decodePack M blob = .ok nodes := by
  have hdoc := M.unpackb_packb _ _ (packDocument_plain h) hblob
  rw [decodePack, hdoc]
  show orRaise ((nodes.map PackNode.toValue).mapM PackNode.ofValue) FsError.corrupt = .ok nodes
  rw [PackNode.mapM_ofValue_toValue]
  rfl

end Aloelite
