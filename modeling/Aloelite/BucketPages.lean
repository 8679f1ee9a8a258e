import Aloelite.S3
import Aloelite.Listings
import Aloelite.EntityTags
import Aloelite.Library.CommonPrefixes

/-! The pages of a bucket listing. A client takes one page after another, from the marker
the last one gave; the keys are those of the entries placed below the listing root, hidden
siblings included. -/
namespace Aloelite

open Fallible Paging

variable {E : Env} {k : Cipher} {db : Db} {mount : MountId} {ids : IdText} {a : NodeId}
  {path : String} {n : ℕ}

/-! ### The keys below a path -/

/-- The rows listed at a path. -/
def Db.rowsAt (db : Db) (anchor : NodeId) (path : String) : List ListedRow :=
  match resolve db anchor path with
  | .ok ⟨c, .container⟩ => db.listChildren c
  | _ => []

/-- Nothing is placed more than `n` levels below a path. -/
def Db.Within (db : Db) (anchor : NodeId) : ℕ → String → Prop
  | 0, _ => False
  | n + 1, path =>
    ∀ r ∈ db.rowsAt anchor path, r.type = .container → db.Within anchor n (S3.childOf path r.name)

/-- The keys of the entries placed up to `n` levels below a path, one for each
placement. -/
def Db.keysBelow (db : Db) (anchor : NodeId) : ℕ → String → Multiset Text
  | 0, _ => 0
  | n + 1, path => Multiset.bind (db.rowsAt anchor path : Multiset ListedRow) (fun r : ListedRow =>
      if r.type = .container then db.keysBelow anchor n (S3.childOf path r.name)
      else {S3.keyOf (S3.childOf path r.name)})

namespace S3

theorem mapM_eq_some {α β : Type*} {f : α → Option β} {as : List α} {bs : List β} :
    as.mapM f = some bs ↔ List.Forall₂ (fun a b => f a = some b) as bs := by
  induction as generalizing bs with
  | nil => simp [eq_comm]
  | cons a as ih =>
    rw [List.mapM_cons]
    constructor
    · intro h
      obtain ⟨b, hb, h⟩ := Option.bind_eq_some_iff.mp h
      obtain ⟨bs', hbs, h⟩ := Option.bind_eq_some_iff.mp h
      obtain rfl := Option.some.inj h
      exact .cons hb (ih.mp hbs)
    · intro h
      cases h with
      | cons hb hbs =>
        simp [hb, ih.mpr hbs]

theorem mapM_isSome {α β : Type*} {f : α → Option β} {as : List α} :
    (as.mapM f).isSome ↔ ∀ a ∈ as, (f a).isSome := by
  induction as with
  | nil => simp
  | cons a as ih =>
    rw [List.mapM_cons, List.forall_mem_cons, ← ih]
    cases f a with
    | none => simp
    | some b =>
      cases as.mapM f with
      | none => simp
      | some bs => simp

section

variable {m : MountCtx} (hm : requireMount E k db mount false = .ok m)
include hm

/-- What a listing answers is the rows at the path; it raises where there are none. -/
theorem list_rows (path : String) :
    list E k db mount path = .ok
      ((db.rowsAt m.mountPoint path).map (DirEntry.ofRow (listingPath path))) ∨
      (∃ e, list E k db mount path = .error e) ∧ db.rowsAt m.mountPoint path = [] := by
  rw [list, hm, Db.rowsAt, ok_bind]
  cases hfound : resolve db m.mountPoint path with
  | error e => exact Or.inr ⟨⟨e, rfl⟩, rfl⟩
  | ok found =>
    obtain ⟨c, t⟩ := found
    cases t with
    | container => exact Or.inl rfl
    | _ => exact Or.inr ⟨⟨_, rfl⟩, rfl⟩

theorem walk_succ (fuel : ℕ) : walk E k db mount (fuel + 1) path =
    ((db.rowsAt m.mountPoint path).mapM (fun r =>
      if r.type = .container then walk E k db mount fuel (childOf path r.name)
      else some [keyOf (childOf path r.name)])).map List.flatten := by
  rw [walk]
  rcases list_rows hm path with hlist | ⟨⟨e, hlist⟩, hrows⟩
  · rw [hlist]
    simp only [List.mapM_map]
    rfl
  · rw [hlist, hrows]
    rfl

theorem walk_isSome : (walk E k db mount n path).isSome ↔ db.Within m.mountPoint n path := by
  induction n generalizing path with
  | zero => simp [walk, Db.Within]
  | succ n ih =>
    rw [walk_succ hm, Option.isSome_map, mapM_isSome, Db.Within]
    apply forall₂_congr
    intro r _
    by_cases hr : r.type = .container
    · simp only [hr, ↓reduceIte, ih, true_implies]
    · simp [hr]

theorem walk_keys {out : List Text} (h : walk E k db mount n path = some out) :
    (out : Multiset Text) = db.keysBelow m.mountPoint n path := by
  induction n generalizing path out with
  | zero => cases h
  | succ n ih =>
    rw [walk_succ hm] at h
    obtain ⟨outs, houts, rfl⟩ := Option.map_eq_some_iff.mp h
    rw [Db.keysBelow]
    have hall := mapM_eq_some.mp houts
    generalize db.rowsAt m.mountPoint path = rows at hall
    clear houts h
    induction hall with
    | nil => rfl
    | @cons r out rows outs hr _ ih' =>
      rw [List.flatten_cons, ← Multiset.coe_add, ih', ← Multiset.cons_coe, Multiset.cons_bind]
      congr 1
      split at hr
      next hc => rw [if_pos hc, ih hr]
      next hc =>
        obtain rfl := Option.some.inj hr
        rw [if_neg hc]
        rfl

theorem walk_mono {out : List Text} (h : walk E k db mount n path = some out) :
    walk E k db mount (n + 1) path = some out := by
  induction n generalizing path out with
  | zero => cases h
  | succ n ih =>
    rw [walk_succ hm] at h ⊢
    obtain ⟨outs, houts, rfl⟩ := Option.map_eq_some_iff.mp h
    rw [mapM_eq_some.mpr _, Option.map_some]
    refine (mapM_eq_some.mp houts).imp ?_
    intro r out hr
    split at hr
    next hc => rw [if_pos hc, ih hr]
    next hc => rw [if_neg hc, hr]

/-- Deeper walks find the same. -/
theorem walk_unique {n' : ℕ} {out out' : List Text} (h : walk E k db mount n path = some out)
    (h' : walk E k db mount n' path = some out') : out = out' := by
  have hmore : ∀ d, walk E k db mount (n + d) path = some out := by
    intro d
    induction d with
    | zero => exact h
    | succ d ih => exact walk_mono hm ih
  have hmore' : ∀ d, walk E k db mount (n' + d) path = some out' := by
    intro d
    induction d with
    | zero => exact h'
    | succ d ih => exact walk_mono hm ih
  have heq := hmore n'
  rw [Nat.add_comm, hmore' n] at heq
  exact (Option.some.inj heq).symm

end

/-! ### One page -/

section

variable {args : ListArgs} {maxKeys : ℕ} {s : Scan} {keys : List Text}

theorem find_cut (d t : Text) :
    (find d t).map (fun i => t.take (i + d.length)) = CommonPrefixes.cut d t := by
  induction t with
  | nil =>
    rw [find, CommonPrefixes.cut]
    split
    next hd => simp
    next => rfl
  | cons c t ih =>
    rw [find, CommonPrefixes.cut, ← ih]
    split
    next hd =>
      rw [Option.map_some, Nat.zero_add, List.prefix_iff_eq_take.mp hd]
      simp
    next =>
      rw [Option.map_map, Option.map_map]
      congr 1
      funext i
      rw [Function.comp_apply, Function.comp_apply, Nat.add_right_comm, List.take_succ_cons]

/-- The groups of a listing. -/
abbrev ListArgs.grouping (args : ListArgs) : Grouping Text Text :=
  CommonPrefixes.grouping args.pfx args.delimiter

theorem group_eq {key : Text} (hkey : args.pfx <+: key) :
    args.group key = args.grouping.group key := by
  change args.group key = CommonPrefixes.group args.pfx args.delimiter key
  rw [ListArgs.group, CommonPrefixes.group]
  by_cases hd : args.delimiter = []
  · rw [if_pos hd, if_neg (fun h => h.1 hd)]
  · rw [if_neg hd, if_pos ⟨hd, hkey⟩, ← find_cut, Option.map_map]
    rfl

theorem group_nil (args : ListArgs) : args.grouping.group [] = none := by
  change CommonPrefixes.group args.pfx args.delimiter [] = none
  rw [CommonPrefixes.group]
  split
  next hp =>
    rw [List.drop_nil, CommonPrefixes.cut, if_neg hp.1]
    rfl
  next => rfl

/-- A key the page can be answered with. -/
def Readable (E : Env) (k : Cipher) (db : Db) (mount : MountId) (key : Text) : Prop :=
  ∃ row, stat E k db mount (normKey key) = .ok row

/-- What the loop has added. -/
structure Scanned (s : Scan) (t : Turn Text Text) (s' : Scan) : Prop where
  contents : s'.contents.map Contents.key = s.contents.map Contents.key ++ t.keys
  common : s'.common = s.common ++ t.groups
  truncated : s'.truncated = t.more
  nextMarker : s'.nextMarker = t.next.getD []

/-- The keys after a marker. -/
def after (marker : Text) (keys : List Text) : List Text :=
  keys.filter (fun key => marker = [] ∨ marker < key)

/-- The loop is a page of the keys after the marker, if these can be looked up. -/
theorem scan_turn (E : Env) (k : Cipher) (db : Db) (mount : MountId) (ids : IdText)
    (args : ListArgs) (maxKeys : ℕ) (s : Scan) (next : Option Text)
    (hkeys : ∀ key ∈ keys, args.pfx <+: key) (hs : s.truncated = false)
    (hnext : s.nextMarker = next.getD []) :
    let t := args.grouping.turn (maxKeys - s.emitted) s.seenPrefixes next (after args.marker keys)
    (∃ s', scan E k db mount ids args maxKeys s keys = .ok s' ∧ Scanned s t s' ∧
        ∀ key ∈ t.keys, Readable E k db mount key) ∨
      (∃ e, scan E k db mount ids args maxKeys s keys = .error e) ∧ ∃ key ∈ t.keys,
      ¬ Readable E k db mount key := by
  induction keys generalizing s next with
  | nil =>
    refine Or.inl ⟨s, rfl, ⟨?_, ?_, ?_, ?_⟩, ?_⟩
    · exact (List.append_nil _).symm
    · exact (List.append_nil _).symm
    · exact hs
    · exact hnext
    · intro key h
      cases h
  | cons key keys ih =>
    obtain ⟨hkey, hkeys⟩ := List.forall_mem_cons.mp hkeys
    have hgroup := group_eq hkey
    intro t
    -- a key that is not after the marker is passed over
    by_cases hskip : args.marker ≠ [] ∧ key ≤ args.marker
    · have hafter : after args.marker (key :: keys) = after args.marker keys := by
        apply List.filter_cons_of_neg
        simpa using ⟨hskip.1, hskip.2⟩
      have ht : t = args.grouping.turn (maxKeys - s.emitted) s.seenPrefixes
          next (after args.marker keys) := by
        rw [← hafter]
      rw [ht, scan, if_pos hskip]
      exact ih s next hkeys hs hnext
    have hafter : after args.marker (key :: keys) = key :: after args.marker keys := by
      apply List.filter_cons_of_pos
      simpa [imp_iff_not_or, or_comm] using hskip
    have ht : t = args.grouping.turn (maxKeys - s.emitted) s.seenPrefixes next (key ::
        after args.marker keys) := by
      rw [← hafter]
    rw [scan, if_neg hskip, hgroup]
    cases hg : args.grouping.group key with
    | some g =>
      simp only
      -- a common prefix is counted once; where the page is full the loop stops at it
      by_cases hseen : g ∈ s.seenPrefixes
      · rw [if_pos hseen, ht, Grouping.turn_seen hg hseen]
        exact ih s next hkeys hs hnext
      rw [if_neg hseen]
      by_cases hfull : maxKeys ≤ s.emitted
      · rw [Nat.sub_eq_zero_of_le hfull, Grouping.turn_full_group hg hseen] at ht
        rw [if_pos hfull, ht]
        refine Or.inl ⟨_, rfl, ⟨?_, ?_, rfl, rfl⟩, by simp⟩
        · exact (List.append_nil _).symm
        · exact (List.append_nil _).symm
      · have hroom : maxKeys - s.emitted = maxKeys - (s.emitted + 1) + 1 := by omega
        rw [hroom, Grouping.turn_group hg hseen] at ht
        rw [if_neg hfull, ht]
        rcases ih { s with
            seenPrefixes := g :: s.seenPrefixes
            common := s.common ++ [g]
            emitted := s.emitted + 1
            nextMarker := key } (some key) hkeys hs rfl with ⟨s', hs', hscan, hread⟩ | herr
        · refine Or.inl ⟨s', hs', ⟨hscan.contents, ?_, hscan.truncated, hscan.nextMarker⟩, hread⟩
          rw [hscan.common, List.append_assoc]
          rfl
        · exact Or.inr herr
    | none =>
      simp only
      by_cases hfull : maxKeys ≤ s.emitted
      · rw [Nat.sub_eq_zero_of_le hfull, Grouping.turn_full_key hg] at ht
        rw [if_pos hfull, ht]
        refine Or.inl ⟨_, rfl, ⟨?_, ?_, rfl, hnext⟩, by simp⟩
        · exact (List.append_nil _).symm
        · exact (List.append_nil _).symm
      have hroom : maxKeys - s.emitted = maxKeys - (s.emitted + 1) + 1 := by omega
      rw [hroom, Grouping.turn_key hg] at ht
      rw [if_neg hfull, ht]
      -- a key of its own is looked up: where that fails the whole listing does
      cases hstat : stat E k db mount (normKey key) with
      | error e =>
        refine Or.inr ⟨⟨_, rfl⟩, key, List.mem_cons_self, ?_⟩
        intro h
        obtain ⟨row, hrow⟩ := h
        rw [hstat] at hrow
        cases hrow
      | ok row =>
        have hreadable : Readable E k db mount key := ⟨row, hstat⟩
        rcases ih { s with
            contents := s.contents ++ [.of ids key (.fromRow db row)]
            emitted := s.emitted + 1
            nextMarker := key } (some key) hkeys hs rfl with
          ⟨s', hs', hscan, hread⟩ | ⟨herr, key', hmem, hnot⟩
        · refine Or.inl ⟨s', hs', ⟨?_, hscan.common, hscan.truncated, hscan.nextMarker⟩, ?_⟩
          · rw [hscan.contents, List.map_append, List.append_assoc]
            rfl
          · exact List.forall_mem_cons.mpr ⟨hreadable, hread⟩
        · exact Or.inr ⟨herr, key', List.mem_cons_of_mem key hmem, hnot⟩

/-- Where a client goes on: at the marker it is given, else at the last key returned. -/
def ListBucketResult.following (r : ListBucketResult) : Text :=
  r.nextMarker.getD ((r.contents.map Contents.key).getLast?.getD [])

/-- A listing answers. -/
def Answers (E : Env) (k : Cipher) (db : Db) (mount : MountId) (ids : IdText) (args : ListArgs)
    (r : ListBucketResult) :
    Prop :=
  ∃ fuel, doList E k db mount ids args fuel = some (.ok r)

/-- The answers a client gets from a marker on, the last one not truncated. -/
inductive Pages (E : Env) (k : Cipher) (db : Db) (mount : MountId) (ids : IdText)
    (args : ListArgs) :
    Text → List ListBucketResult → Prop
  | last {marker : Text} {r : ListBucketResult}
    (h : Answers E k db mount ids { args with marker := marker } r)
      (hr : r.isTruncated = false) : Pages E k db mount ids args marker [r]
  | more {marker : Text} {r : ListBucketResult} {rs : List ListBucketResult}
      (h : Answers E k db mount ids { args with marker := marker } r) (hr : r.isTruncated = true)
      (hrs : Pages E k db mount ids args r.following rs) :
      Pages E k db mount ids args marker (r :: rs)

/-- What a page shows. -/
def ListBucketResult.items (r : ListBucketResult) : List Text × List Text :=
  (r.contents.map Contents.key, r.commonPrefixes)

/-- The keys the loop runs over. -/
def sortedKeys (args : ListArgs) (found : List Text) : List Text :=
  (found.filter (args.pfx <+: ·)).insertionSort (· ≤ ·)

theorem sortedKeys_sorted (found : List Text) : (sortedKeys args found).Pairwise (· ≤ ·) :=
  List.pairwise_insertionSort _ _

theorem mem_sortedKeys {found : List Text} {key : Text} :
    key ∈ sortedKeys args found ↔ key ∈ found ∧ args.pfx <+: key := by
  rw [sortedKeys, List.mem_insertionSort, List.mem_filter, decide_eq_true_eq]

/-- A marker that is a key is where the keys after it start. -/
theorem after_after {marker next : Text} {keys : List Text} (hnext : next ∈ after marker keys)
    (hne : next ≠ []) :
    (after marker keys).filter
      (fun key => @decide (next < key) (LinearOrder.toDecidableLT next key)) = after next keys := by
  have hlt := (List.mem_filter.mp hnext).2
  rw [decide_eq_true_eq] at hlt
  rw [after, after, List.filter_filter]
  apply List.filter_congr
  intro key _
  rw [Bool.eq_iff_iff]
  simp only [Bool.and_eq_true, decide_eq_true_eq, hne, false_or]
  constructor
  · exact fun h => h.1
  · intro h
    exact ⟨h, hlt.imp_right fun hm => hm.trans h⟩

/-- Where there are no groups, the marker is the last key. -/
theorem turn_last (hd : args.delimiter = []) {room : ℕ} :
    (args.grouping.turn room [] none keys).next =
      (args.grouping.turn room [] none keys).keys.getLast? := by
  have hnone : ∀ key, args.grouping.group key = none := by
    intro key
    change CommonPrefixes.group args.pfx args.delimiter key = none
    rw [CommonPrefixes.group, if_neg (fun h => h.1 hd)]
  have hall : ∀ room seen next keys, (args.grouping.turn room seen next keys).next =
      ((args.grouping.turn room seen next keys).keys.getLast?).or next := by
    refine Grouping.turn_cases (P := fun _ _ next _ t => t.next = t.keys.getLast?.or next) ?_ ?_ ?_
      ?_ ?_ ?_
    · intro _ _ _
      rfl
    · intro _ _ _ key _ g _ hg _ _
      rw [hnone] at hg
      cases hg
    · intro _ _ key _ g hg _
      rw [hnone] at hg
      cases hg
    · intro _ _ _ _ _
      rfl
    · intro _ _ _ key _ g _ hg _ _
      rw [hnone] at hg
      cases hg
    · intro _ _ _ key _ t _ ih
      rw [Turn.addKey, ih, List.getLast?_cons]
      cases t.keys.getLast? with
      | none => rfl
      | some last => rfl
  rw [hall, Option.or_none]

section

variable {m : MountCtx} (hm : requireMount E k db mount false = .ok m) {found : List Text}
  {fuel : ℕ} {j : ℕ} (hwalk : walk E k db mount fuel args.root = some found)
  (hlimit : args.limit = .ok (j + 1))
include hm hwalk hlimit

/-- One page of a listing whose tree was walked. -/
theorem answers_turn (ids : IdText) (marker : Text) :
    let t := args.grouping.turn (j + 1) [] none (after marker (sortedKeys args found))
    (∀ r, Answers E k db mount ids { args with marker := marker } r →
      r.items = (t.keys, t.groups) ∧ r.isTruncated = t.more ∧
      (t.more = true → r.following = t.next.getD []) ∧
        ∀ key ∈ t.keys, Readable E k db mount key) ∧
      ((∀ key ∈ t.keys, Readable E k db mount key) →
      ∃ r, Answers E k db mount ids { args with marker := marker } r) := by
  intro t
  have hkeys : ∀ key ∈ sortedKeys args found, args.pfx <+: key :=
    fun key h => (mem_sortedKeys.mp h).2
  -- the walk is the same for every marker, so a page is the loop over one list of keys
  have hdo : ∀ fuel', doList E k db mount ids { args with marker := marker } fuel' =
      (walk E k db mount fuel' args.root).map (fun found => do
        let s ← scan E k db mount ids { args with marker := marker } (j + 1) {}
          (sortedKeys args found)
        return {
          pfx := args.pfx
          marker := marker
          maxKeys := j + 1
          delimiter := args.delimiter
          isTruncated := s.truncated
          nextMarker := if s.truncated ∧ args.delimiter ≠ [] then some s.nextMarker else none
          contents := s.contents
          commonPrefixes := s.common }) := by
    intro fuel'
    have hlimit' : ({ args with marker := marker } : ListArgs).limit = .ok (j + 1) := hlimit
    rw [doList, hlimit']
    rfl
  rcases scan_turn E k db mount ids { args with marker := marker }
    (j + 1) {} none hkeys rfl rfl with
    ⟨s', hs', hscanned, hread⟩ | ⟨⟨e, he⟩, key, hmem, hnot⟩
  · refine ⟨?_, ?_⟩
    · intro r hr
      obtain ⟨fuel', hr⟩ := hr
      rw [hdo] at hr
      obtain ⟨found', hfound', hr⟩ := Option.map_eq_some_iff.mp hr
      obtain rfl := walk_unique hm hwalk hfound'
      rw [hs'] at hr
      obtain rfl := Except.ok.inj hr
      have hcontents : s'.contents.map Contents.key = t.keys := hscanned.contents
      have hcommon : s'.common = t.groups := hscanned.common
      refine ⟨Prod.ext hcontents hcommon, hscanned.truncated, ?_, hread⟩
      intro hmore
      have htruncated : s'.truncated = true := hscanned.truncated.trans hmore
      have hnext : s'.nextMarker = t.next.getD [] := hscanned.nextMarker
      rw [ListBucketResult.following]
      by_cases hd : args.delimiter = []
      · have hlast : t.next = t.keys.getLast? := turn_last hd
        simp only [hd, ne_eq, not_true, and_false, ↓reduceIte, Option.getD_none, hcontents, hlast]
      · simp only [htruncated, hd, ne_eq, not_false_eq_true, and_self, ↓reduceIte,
          Option.getD_some, hnext]
    · intro _
      have hr := hdo fuel
      rw [hwalk, Option.map_some, hs'] at hr
      exact ⟨_, fuel, hr⟩
  · refine ⟨?_, fun hall => absurd (hall key hmem) hnot⟩
    intro r hr
    obtain ⟨fuel', hr⟩ := hr
    rw [hdo] at hr
    obtain ⟨found', hfound', hr⟩ := Option.map_eq_some_iff.mp hr
    obtain rfl := walk_unique hm hwalk hfound'
    rw [he] at hr
    cases hr

/-- The client's pages are pages of the sorted keys. -/
theorem pages_turns (hnil : [] ∉ sortedKeys args found) {marker : Text} {rs : List ListBucketResult}
    (h : Pages E k db mount ids args marker rs) :
    ∃ ts, args.grouping.Turns (j + 1) (after marker (sortedKeys args found)) ts ∧
      rs.map ListBucketResult.items = ts.map (fun t => (t.keys, t.groups)) ∧
        ∀ key ∈ ts.flatMap Turn.keys, Readable E k db mount key := by
  induction h with
  | @last marker r h hr =>
    obtain ⟨hitems, htrunc, -, hread⟩ := (answers_turn hm hwalk hlimit ids marker).1 r h
    refine ⟨_, .last (htrunc.symm.trans hr),
      by rw [List.map_singleton, List.map_singleton, hitems], ?_⟩
    rw [List.flatMap_singleton]
    exact hread
  | @more marker r rs h hr _ ih =>
    obtain ⟨hitems, htrunc, hfollow, hread⟩ := (answers_turn hm hwalk hlimit ids marker).1 r h
    have hmore := htrunc.symm.trans hr
    obtain ⟨next, hmem, hnext⟩ := Grouping.turn_next hmore
    have hne : next ≠ [] := by
      rintro rfl
      exact hnil (List.mem_of_mem_filter hmem)
    obtain ⟨ts, hts, heq, hall⟩ := ih
    have hat : r.following = next := by rw [hfollow hmore, hnext, Option.getD_some]
    rw [hat, ← after_after hmem hne] at hts
    refine ⟨_, .more hmore hnext hts, by rw [List.map_cons, List.map_cons, hitems, heq], ?_⟩
    rw [List.flatMap_cons]
    exact List.forall_mem_append.mpr ⟨hread, hall⟩

/-- Pages of keys that can be looked up are what the client gets. -/
theorem turns_pages (hnil : [] ∉ sortedKeys args found) {marker : Text} {ts : List (Turn Text Text)}
    (h : args.grouping.Turns (j + 1) (after marker (sortedKeys args found)) ts)
    (hread : ∀ key ∈ ts.flatMap Turn.keys, Readable E k db mount key) :
    ∃ rs, Pages E k db mount ids args marker rs ∧
      rs.map ListBucketResult.items = ts.map (fun t => (t.keys, t.groups)) := by
  generalize hK : after marker (sortedKeys args found) = K at h
  induction h generalizing marker with
  | last hmore =>
    subst hK
    rw [List.flatMap_singleton] at hread
    obtain ⟨hanswer, hexists⟩ := answers_turn hm hwalk hlimit ids marker
    obtain ⟨r, hr⟩ := hexists hread
    obtain ⟨hitems, htrunc, -, -⟩ := hanswer r hr
    exact ⟨[r], .last hr (htrunc.trans hmore),
      by rw [List.map_singleton, List.map_singleton, hitems]⟩
  | @more K next ts hmore hnext hts ih =>
    subst hK
    rw [List.flatMap_cons, List.forall_mem_append] at hread
    obtain ⟨hanswer, hexists⟩ := answers_turn hm hwalk hlimit ids marker
    obtain ⟨r, hr⟩ := hexists hread.1
    obtain ⟨hitems, htrunc, hfollow, -⟩ := hanswer r hr
    obtain ⟨next', hmem, hnext'⟩ := Grouping.turn_next hmore
    obtain rfl := Option.some.inj (hnext.symm.trans hnext')
    have hne : next ≠ [] := by
      rintro rfl
      exact hnil (List.mem_of_mem_filter hmem)
    obtain ⟨rs, hrs, heq⟩ := ih hread.2 (after_after hmem hne).symm
    have hat : r.following = next := by rw [hfollow hmore, hnext, Option.getD_some]
    rw [← hat] at hrs
    exact ⟨r :: rs, .more hr (htrunc.trans hmore) hrs,
      by rw [List.map_cons, List.map_cons, hitems, heq]⟩

end

/-! ### The bucket once -/

/-- A visible object: a path of names leads to it, and the key is the names joined. -/
def VisibleKey (db : Db) (anchor : NodeId) (key : Text) : Prop :=
  ∃ segs found, segs ≠ [] ∧ (∀ seg ∈ segs, IsSegment seg) ∧ key = ("/".intercalate segs).toList ∧
    descend db anchor .container segs = .ok found ∧ found.type ≠ .container

/-- The pages cover the visible keys under the prefix: those with no delimiter after it
once, each common prefix once, nothing else, in ascending order, with no more than the
given number of items on a page. -/
structure CoversOnce (db : Db) (anchor : NodeId) (args : ListArgs) (maxKeys : Int)
    (rs : List ListBucketResult) : Prop where
  mem_contents : ∀ key, key ∈ rs.flatMap (fun r => r.contents.map Contents.key) ↔
    VisibleKey db anchor key ∧ args.pfx <+: key ∧ args.group key = none
  mem_commonPrefixes : ∀ g, g ∈ rs.flatMap ListBucketResult.commonPrefixes ↔
    ∃ key, VisibleKey db anchor key ∧ args.pfx <+: key ∧ args.group key = some g
  contents_ascending : (rs.flatMap (fun r => r.contents.map Contents.key)).Pairwise (· < ·)
  commonPrefixes_ascending : (rs.flatMap ListBucketResult.commonPrefixes).Pairwise (· < ·)
  pages_ascending : rs.Pairwise (fun r r' => ∀ x ∈ r.contents.map Contents.key ++ r.commonPrefixes,
    ∀ y ∈ r'.contents.map Contents.key ++ r'.commonPrefixes, x < y)
  short : ∀ r ∈ rs, (r.contents.length + r.commonPrefixes.length : ℕ) ≤ maxKeys

/-- The keys placed under the prefix up to `n` levels below the listing root, in
ascending order. -/
def placedKeys (db : Db) (anchor : NodeId) (args : ListArgs) (n : ℕ) : List Text :=
  ((db.keysBelow anchor n args.root).filter (args.pfx <+: ·)).sort (· ≤ ·)

/-- The number of items on a page. -/
def pageSize (maxKeys : Int) : ℕ := (min maxKeys MAX_MAX_KEYS).toNat

/-- A common prefix with a visible key. -/
def WantedPrefix (db : Db) (anchor : NodeId) (args : ListArgs) (g : Text) : Prop :=
  ∃ key, VisibleKey db anchor key ∧ args.pfx <+: key ∧ args.group key = some g

/-- A tree whose placed keys can be paged through: below the listing root it has an end;
the keys placed that are listed as keys are the visible ones, and each is found under its
normalized path; common prefixes with a visible key have a placed one; and what stands at
the ends of the pages is as the markers need it. -/
structure Pageable (db : Db) (anchor : NodeId) (args : ListArgs) (maxKeys : Int) (n : ℕ) :
    Prop where
  within : db.Within anchor n args.root
  plain : ∀ key, key ∈ placedKeys db anchor args n ∧ args.group key = none ↔
    VisibleKey db anchor key ∧ args.pfx <+: key ∧ args.group key = none
  found : ∀ key ∈ placedKeys db anchor args n, args.group key = none →
    ∃ r, resolve db anchor (normKey key) = .ok r
  grouped : ∀ g, WantedPrefix db anchor args g → ∃ key ∈ placedKeys db anchor args n,
    args.group key = some g
  fair : args.grouping.Fair (WantedPrefix db anchor args) (pageSize maxKeys - 1)
    (placedKeys db anchor args n).length
    (args.grouping.blocks (placedKeys db anchor args n))

theorem limit_of_asked {maxKeys : Int}
    (hmax : args.maxKeys.getD (some DEFAULT_MAX_KEYS) = some maxKeys) (hpos : 1 ≤ maxKeys) :
    args.limit = .ok (pageSize maxKeys - 1 + 1) ∧ (pageSize maxKeys - 1 + 1 : ℕ) ≤ maxKeys := by
  have hmin : 1 ≤ min maxKeys MAX_MAX_KEYS := le_min hpos (by decide)
  have hsize : pageSize maxKeys - 1 + 1 = (min maxKeys MAX_MAX_KEYS).toNat := by
    rw [pageSize]
    omega
  rw [hsize]
  refine ⟨?_, ?_⟩
  · rw [ListArgs.limit, hmax]
    simp only [orRaise, ok_bind, refuse]
    rw [if_neg (by simp; omega)]
    rfl
  · have hle := min_le_left maxKeys MAX_MAX_KEYS
    omega

end

theorem visibleKey_ne_nil {key : Text} (h : VisibleKey db a key) : key ≠ [] := by
  obtain ⟨segs, -, hne, hsegs, rfl, -, -⟩ := h
  obtain ⟨seg, rest, rfl⟩ := List.exists_cons_of_ne_nil hne
  have hseg := (hsegs seg List.mem_cons_self).1
  rw [String.toList_intercalate, List.map_cons]
  cases rest with
  | nil => simpa using hseg
  | cons seg' rest => simp [hseg]

/-- With a valid mount a key is looked up by its path alone. -/
theorem readable_iff {m : MountCtx} (hm : requireMount E k db mount false = .ok m) {key : Text} :
    Readable E k db mount key ↔ ∃ r, resolve db m.mountPoint (normKey key) = .ok r := by
  constructor
  · intro h
    obtain ⟨row, hrow⟩ := h
    rw [stat, hm, ok_bind] at hrow
    obtain ⟨found, hfound, -⟩ := bind_eq_ok.mp hrow
    exact ⟨found, hfound⟩
  · intro h
    obtain ⟨found, hfound⟩ := h
    obtain ⟨row, hrow, -⟩ := Option.map_eq_some_iff.mp (resolve_nodeType hfound)
    refine ⟨row, ?_⟩
    rw [stat, hm, ok_bind, hfound, ok_bind, statById, hm, ok_bind, hrow]
    rfl

theorem sortedKeys_eq {args : ListArgs} {m : MountCtx}
    (hm : requireMount E k db mount false = .ok m) {found : List Text}
    (hwalk : walk E k db mount n args.root = some found) :
    sortedKeys args found = placedKeys db m.mountPoint args n := by
  apply List.Perm.eq_of_pairwise (fun _ _ _ _ h h' => le_antisymm h h') (sortedKeys_sorted found)
    (Multiset.pairwise_sort _ _)
  rw [← Multiset.coe_eq_coe, Multiset.sort_eq, ← walk_keys hm hwalk, Multiset.filter_coe,
    Multiset.coe_eq_coe]
  exact List.perm_insertionSort _ _

section

variable {args : ListArgs} {maxKeys : Int} {K : List Text} {j : ℕ} {ts : List (Turn Text Text)}
  {rs : List ListBucketResult}

/-- Pages that cover the bucket show the sorted keys as they should, and the other way
round. -/
theorem covers_iff_shows (hsorted : K.Pairwise (· ≤ ·)) (hpre : ∀ key ∈ K, args.pfx <+: key)
    (hj : (j + 1 : ℕ) ≤ maxKeys) (hts : args.grouping.Turns (j + 1) K ts)
    (hitems : rs.map ListBucketResult.items = ts.map (fun t => (t.keys, t.groups))) :
    CoversOnce db a args maxKeys rs ↔
      (∀ key, key ∈ K ∧ args.group key = none ↔ VisibleKey db a key ∧ args.pfx <+: key ∧
        args.group key = none) ∧
        (∀ g, WantedPrefix db a args g → ∃ key ∈ K, args.group key = some g) ∧
          args.grouping.Shows (WantedPrefix db a args) ts K := by
  have hkeys : rs.flatMap (fun r => r.contents.map Contents.key) = ts.flatMap Turn.keys := by
    have h := congrArg (List.flatMap Prod.fst) hitems
    rwa [List.flatMap_map, List.flatMap_map] at h
  have hgroups : rs.flatMap ListBucketResult.commonPrefixes = ts.flatMap Turn.groups := by
    have h := congrArg (List.flatMap Prod.snd) hitems
    rwa [List.flatMap_map, List.flatMap_map] at h
  -- the pages show the keys without a group, each of them somewhere
  have hshown : ∀ key, key ∈ ts.flatMap Turn.keys ↔ key ∈ K ∧ args.group key = none := by
    intro key
    constructor
    · intro h
      obtain ⟨hmem, hnone⟩ := Grouping.turns_keys hts key h
      exact ⟨hmem, (group_eq (hpre key hmem)).trans hnone⟩
    · intro h
      exact Grouping.turns_plain hsorted hts h.1 ((group_eq (hpre key h.1)).symm.trans h.2)
  have hthere : ∀ g, (∃ key ∈ K, args.grouping.group key = some g) ↔ ∃ key ∈ K, args.group key =
      some g := by
    intro g
    apply exists_congr
    intro key
    apply and_congr_right
    intro hmem
    rw [group_eq (hpre key hmem)]
  constructor
  · intro h
    have hplain : ∀ key, key ∈ K ∧ args.group key = none ↔
        VisibleKey db a key ∧ args.pfx <+: key ∧ args.group key = none := by
      intro key
      rw [← hshown, ← hkeys]
      exact h.mem_contents key
    have hgrouped : ∀ g, WantedPrefix db a args g → ∃ key ∈ K, args.grouping.group key =
        some g := by
      intro g hg
      apply Grouping.turns_groups hts
      rw [← hgroups]
      exact (h.mem_commonPrefixes g).mpr hg
    refine ⟨hplain, fun g hg => (hthere g).mp (hgrouped g hg), ?_⟩
    refine ⟨hkeys ▸ h.contents_ascending, hgroups ▸ h.commonPrefixes_ascending, ?_, ?_⟩
    · intro key
      rw [hshown]
      apply and_congr_right
      intro hmem
      rw [group_eq (hpre key hmem)]
    · intro g
      rw [← hgroups, h.mem_commonPrefixes]
      exact ⟨fun hg => ⟨hgrouped g hg, hg⟩, fun hg => hg.2⟩
  · intro h
    obtain ⟨hplain, hgrouped, hshows⟩ := h
    refine ⟨?_, ?_, hkeys ▸ hshows.keys_sorted, hgroups ▸ hshows.groups_sorted, ?_, ?_⟩
    · intro key
      rw [hkeys, hshown, hplain]
    · intro g
      rw [hgroups, hshows.mem_groups, hthere]
      exact ⟨fun hg => hg.2, fun hg => ⟨hgrouped g hg, hg⟩⟩
    · -- what a page shows ends before the marker the next page starts after
      have hbefore := Grouping.turns_before hsorted hts
      have hcross := (List.pairwise_flatMap.mp hshows.groups_sorted).2
      have hall : (rs.map ListBucketResult.items).Pairwise (fun p q => ∀ x ∈ p.1 ++ p.2,
          ∀ y ∈ q.1 ++ q.2, x < y) := by
        rw [hitems, List.pairwise_map]
        refine (hbefore.and hcross).imp ?_
        intro t t' h x hx y hy
        obtain ⟨⟨m, hkeys, hgroups, hkeys', hgroups'⟩, hlt⟩ := h
        rcases List.mem_append.mp hx with hx | hx
        · obtain ⟨hle, hnone⟩ := hkeys x hx
          rcases List.mem_append.mp hy with hy | hy
          · exact hle.trans_lt (hkeys' y hy).1
          · obtain ⟨c, hmc, hc⟩ := hgroups' y hy
            exact CommonPrefixes.lt_group (hle.trans_lt hmc) hnone hc
        · rcases List.mem_append.mp hy with hy | hy
          · obtain ⟨b, hle, hb⟩ := hgroups x hx
            have hxb : x ≤ b := CommonPrefixes.prefix_le (CommonPrefixes.group_start hb).2
            exact (hxb.trans hle).trans_lt (hkeys' y hy).1
          · exact hlt x hx y hy
      rw [List.pairwise_map] at hall
      exact hall
    · intro r hr
      have hmem : r.items ∈ ts.map (fun t => (t.keys, t.groups)) := by
        rw [← hitems]
        exact List.mem_map_of_mem hr
      obtain ⟨t, ht, heq⟩ := List.mem_map.mp hmem
      obtain ⟨hk, hg⟩ := Prod.mk.inj heq
      have hlen := Grouping.turns_length hts t ht
      rw [hk, hg, List.length_map] at hlen
      omega

end

theorem answers_unique {args : ListArgs} {m : MountCtx} {r r' : ListBucketResult}
    (hm : requireMount E k db mount false = .ok m) (h : Answers E k db mount ids args r)
    (h' : Answers E k db mount ids args r') : r = r' := by
  obtain ⟨fuel, h⟩ := h
  obtain ⟨fuel', h'⟩ := h'
  rw [doList] at h h'
  cases hlimit : args.limit with
  | error e =>
    rw [hlimit] at h
    cases h
  | ok maxKeys =>
    rw [hlimit] at h h'
    obtain ⟨found, hwalk, h⟩ := Option.map_eq_some_iff.mp h
    obtain ⟨found', hwalk', h'⟩ := Option.map_eq_some_iff.mp h'
    obtain rfl := walk_unique hm hwalk hwalk'
    exact Except.ok.inj (h.symm.trans h')

theorem pages_first {args : ListArgs} {marker : Text} {rs : List ListBucketResult}
    (h : Pages E k db mount ids args marker rs) :
    ∃ r rs', rs = r :: rs' ∧ Answers E k db mount ids { args with marker := marker } r := by
  cases h with
  | last h _ => exact ⟨_, [], rfl, h⟩
  | more h _ _ => exact ⟨_, _, rfl, h⟩

theorem after_nil (keys : List Text) : after [] keys = keys := by
  rw [after, List.filter_eq_self]
  simp

/-- The pages of a bucket, from no marker on, cover it once if and only if its tree can
be paged through. -/
theorem s3_pages_cover_once {m : MountCtx} {args : ListArgs} {maxKeys : Int}
    (hm : requireMount E k db mount false = .ok m)
    (hmax : args.maxKeys.getD (some DEFAULT_MAX_KEYS) = some maxKeys) (hpos : 1 ≤ maxKeys) :
    (∃ rs, Pages E k db mount ids args [] rs ∧ CoversOnce db m.mountPoint args maxKeys rs) ↔
      ∃ n, Pageable db m.mountPoint args maxKeys n := by
  obtain ⟨hlimit, hj⟩ := limit_of_asked hmax hpos
  generalize hsize : pageSize maxKeys - 1 = j at hlimit hj
  constructor
  · intro h
    obtain ⟨rs, hrs, hcovers⟩ := h
    obtain ⟨r, rs', rfl, hfirst⟩ := pages_first hrs
    -- the first answer walked the tree to its end
    obtain ⟨n, found, hwalk⟩ : ∃ n found, walk E k db mount n args.root = some found := by
      obtain ⟨n, hdo⟩ := hfirst
      have hlimit' : ({ args with marker := [] } : ListArgs).limit = .ok (j + 1) := hlimit
      rw [doList, hlimit'] at hdo
      obtain ⟨found, hwalk, -⟩ := Option.map_eq_some_iff.mp hdo
      exact ⟨n, found, hwalk⟩
    have hK := sortedKeys_eq hm hwalk
    have hsorted : (placedKeys db m.mountPoint args n).Pairwise (· ≤ ·) :=
      hK ▸ sortedKeys_sorted found
    have hpre : ∀ key ∈ placedKeys db m.mountPoint args n, args.pfx <+: key := by
      intro key hkey
      rw [← hK] at hkey
      exact (mem_sortedKeys.mp hkey).2
    -- an empty key would be on the first page, and none is visible
    have hnil : [] ∉ sortedKeys args found := by
      intro hmem
      obtain ⟨hitems, -, -, -⟩ := (answers_turn hm hwalk hlimit ids []).1 r hfirst
      rw [after_nil] at hitems
      have hshown : [] ∈ (args.grouping.turn (j + 1) [] none (sortedKeys args found)).keys := by
        rcases Grouping.turn_plain (sortedKeys_sorted found) hmem
          (group_nil args) with h | ⟨hmore, hlt⟩
        · exact h
        · obtain ⟨next, -, hnext⟩ := Grouping.turn_next hmore
          exact absurd (hlt next hnext) (List.not_lt_nil next)
      have hcontents : [] ∈ r.contents.map Contents.key := by
        rw [show r.contents.map Contents.key = _ from congrArg Prod.fst hitems]
        exact hshown
      have hvisible :=
        (hcovers.mem_contents []).mp (List.mem_flatMap.mpr ⟨r, List.mem_cons_self, hcontents⟩)
      exact visibleKey_ne_nil hvisible.1 rfl
    obtain ⟨ts, hts, hitems, hread⟩ := pages_turns hm hwalk hlimit hnil hrs
    rw [after_nil, hK] at hts
    obtain ⟨hplain, hgrouped, hshows⟩ := (covers_iff_shows hsorted hpre hj hts hitems).mp hcovers
    refine ⟨n, ?_, hplain, ?_, hgrouped, ?_⟩
    · rw [← walk_isSome hm, hwalk]
      rfl
    · intro key hmem hnone
      apply (readable_iff hm).mp
      apply hread
      exact (hshows.mem_keys key).mpr ⟨hmem, (group_eq (hpre key hmem)).symm.trans hnone⟩
    · rw [hsize, ← Grouping.exists_shows hsorted (Grouping.length_blocks _)]
      exact ⟨ts, hts, hshows⟩
  · intro h
    obtain ⟨n, hwithin, hplain, hfound, hgrouped, hfair⟩ := h
    obtain ⟨found, hwalk⟩ := Option.isSome_iff_exists.mp ((walk_isSome hm).mpr hwithin)
    have hK := sortedKeys_eq hm hwalk
    have hsorted : (placedKeys db m.mountPoint args n).Pairwise (· ≤ ·) :=
      hK ▸ sortedKeys_sorted found
    have hpre : ∀ key ∈ placedKeys db m.mountPoint args n, args.pfx <+: key := by
      intro key hkey
      rw [← hK] at hkey
      exact (mem_sortedKeys.mp hkey).2
    rw [hsize, ← Grouping.exists_shows hsorted (Grouping.length_blocks _)] at hfair
    obtain ⟨ts, hts, hshows⟩ := hfair
    have hread : ∀ key ∈ ts.flatMap Turn.keys, Readable E k db mount key := by
      intro key hkey
      obtain ⟨hmem, hnone⟩ := (hshows.mem_keys key).mp hkey
      exact (readable_iff hm).mpr (hfound key hmem ((group_eq (hpre key hmem)).trans hnone))
    have hnil : [] ∉ sortedKeys args found := by
      intro hmem
      have hp : args.pfx <+: [] := (mem_sortedKeys.mp hmem).2
      have hnone : args.group [] = none := (group_eq hp).trans (group_nil args)
      rw [hK] at hmem
      exact visibleKey_ne_nil ((hplain []).mp ⟨hmem, hnone⟩).1 rfl
    rw [← hK, ← after_nil (sortedKeys args found)] at hts
    obtain ⟨rs, hrs, hitems⟩ := turns_pages hm hwalk hlimit hnil hts hread
    rw [after_nil, hK] at hts
    exact ⟨rs, hrs, (covers_iff_shows hsorted hpre hj hts hitems).mpr ⟨hplain, hgrouped, hshows⟩⟩

/-- Three folders with an object each. -/
def bucketRun : List Label :=
  [⟨.counting 0, 0, .createVolume none 128 none .none⟩,
    ⟨.counting 1, 0, .mount { volume := 0 }⟩,
    ⟨.counting 2, 0, .request 1 (.createContainer "a")⟩,
    ⟨.counting 4, 0, .request 1 (.createContainer "b")⟩,
    ⟨.counting 6, 0, .request 1 (.createContainer "c")⟩,
    ⟨.counting 8, 0, .request 1 (.createEntry "a/1" [7])⟩,
    ⟨.counting 10, 0, .request 1 (.createEntry "b/1" [8])⟩,
    ⟨.counting 12, 0, .request 1 (.createEntry "c/1" [9])⟩]

def bucket : Sys := bucketRun.foldl (step Crypto.xorStream Msgpack.refusing) {}

theorem s3_pages_cover_once_flat :
    (∃ rs, Pages (.counting 20) .identity bucket.db 1 .decimal { maxKeys := some (some 2) } [] rs ∧
      CoversOnce bucket.db 0 { maxKeys := some (some 2) } 2 rs) ↔
      ∃ n, Pageable bucket.db 0 { maxKeys := some (some 2) } 2 n := by
  have hm : requireMount (.counting 20) .identity bucket.db 1 false = .ok ⟨1, 0, 0, .none⟩ := by
    decide +kernel
  exact s3_pages_cover_once hm rfl (by decide)

/-- Grouped, one on a page: the first page ends before `b/1`, which is the marker, and
the next one starts after it. -/
theorem s3_pages_lose_prefix :
    let args : ListArgs := { delimiter := ['/'], maxKeys := some (some 1) }
    Reaches Crypto.xorStream Msgpack.refusing (fun _ _ => True) bucket ∧
      requireMount (.counting 20) .identity bucket.db 1 false = .ok ⟨1, 0, 0, .none⟩ ∧
      WantedPrefix bucket.db 0 args "b/".toList ∧
      ¬ ∃ rs, Pages (.counting 20) .identity bucket.db 1 .decimal args [] rs ∧
      CoversOnce bucket.db 0 args 1 rs := by
  intro args
  have hguards : GuardedRuns.Guards (step Crypto.xorStream Msgpack.refusing)
      (fun _ _ => True) {} bucketRun := by
    decide +kernel
  have hm : requireMount (.counting 20) .identity bucket.db 1 false = .ok ⟨1, 0, 0, .none⟩ := by
    decide +kernel
  have hwanted : WantedPrefix bucket.db 0 args "b/".toList := by
    refine ⟨"b/1".toList,
      ⟨["b", "1"], ⟨10, .entry⟩,
      by decide, by decide, by decide +kernel, by decide +kernel, by decide⟩, ?_, ?_⟩
    · exact List.nil_prefix
    · decide +kernel
  refine ⟨reaches_foldl hguards, hm, hwanted, ?_⟩
  let r : ListBucketResult :=
    { pfx := [], marker := [], maxKeys := 1, delimiter := ['/'], isTruncated := true,
      nextMarker := some "b/1".toList
      contents := [], commonPrefixes := ["a/".toList] }
  let r' : ListBucketResult :=
    { pfx := [], marker := "b/1".toList, maxKeys := 1, delimiter := ['/'], isTruncated := false,
      nextMarker := none
      contents := [], commonPrefixes := ["c/".toList] }
  have hr : Answers (.counting 20) .identity bucket.db 1 .decimal { args with marker := [] } r :=
    ⟨3, by decide +kernel⟩
  have hr' : Answers (.counting 20) .identity bucket.db 1 .decimal
      { args with marker := "b/1".toList } r' :=
    ⟨3, by decide +kernel⟩
  intro h
  obtain ⟨rs, hrs, hcovers⟩ := h
  have hmem := (hcovers.mem_commonPrefixes "b/".toList).mpr hwanted
  cases hrs with
  | last h hlast =>
    obtain rfl := answers_unique hm h hr
    cases hlast
  | more h _ hrest =>
    obtain rfl := answers_unique hm h hr
    cases hrest with
    | last h' _ =>
      obtain rfl := answers_unique hm h' hr'
      revert hmem
      decide
    | more h' hmore _ =>
      obtain rfl := answers_unique hm h' hr'
      cases hmore

end S3

end Aloelite
