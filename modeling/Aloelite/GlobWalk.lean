import Aloelite.TreeDownloads
import Aloelite.Library.Divisions

/-! `fnmatch`, the generators of the walk, and the walk of `glob` and `rglob`: it goes down the tree
with what is left of the pattern, and at a `**` both on from where it is and into every
container with the same pattern. More stack changes none of its results. -/
namespace Aloelite

open Fallible KeyedRows ForestOrder Divisions

/-! ### `fnmatch` -/

/-- One element of a translated pattern. -/
inductive Glyph where
  | star
  | any
  | set (negated : Bool) (ranges : List (Char × Char))
  | exactly (ch : Char)
  deriving DecidableEq, Repr

/-- The members of a set; a hyphen makes a range where something stands on both sides. -/
def setRanges : List Char → List (Char × Char)
  | [] => []
  | lo :: '-' :: hi :: rest => (lo, hi) :: setRanges rest
  | ch :: rest => (ch, ch) :: setRanges rest

/-- What stands between the brackets and what is behind them; a closing bracket right at the
start is a member. -/
def setBody (rest : List Char) : Option (Bool × List Char × List Char) :=
  let negated := rest.head? = some '!'
  let rest := if negated then rest.drop 1 else rest
  let first := if rest.head? = some ']' then [']'] else []
  match (rest.drop first.length).span (· ≠ ']') with
  | (inside, _ :: after) => some (negated, first ++ inside, after)
  | (_, []) => none

/-- `translate`; a bracket that is never closed stands for itself. -/
def translate : ℕ → List Char → List Glyph
  | 0, _ => []
  | _ + 1, [] => []
  | n + 1, '*' :: rest => .star :: translate n rest
  | n + 1, '?' :: rest => .any :: translate n rest
  | n + 1, '[' :: rest =>
    match setBody rest with
    | some (negated, body, after) => .set negated (setRanges body) :: translate n after
    | none => .exactly '[' :: translate n rest
  | n + 1, ch :: rest => .exactly ch :: translate n rest

def Glyph.takes : Glyph → Char → Bool
  | .star, _ => true
  | .any, _ => true
  | .set negated ranges, ch => ranges.any (fun r => r.1 ≤ ch ∧ ch ≤ r.2) ≠ negated
  | .exactly own, ch => own = ch

/-- The whole text matches. -/
def matchGlyphs : List Glyph → List Char → Bool
  | [], chars => chars.isEmpty
  | .star :: glyphs, chars => chars.tails.any (matchGlyphs glyphs)
  | _ :: _, [] => false
  | glyph :: glyphs, ch :: chars => glyph.takes ch && matchGlyphs glyphs chars

/-- `fnmatch`, where case matters. -/
def fnmatch (name pat : String) : Bool :=
  matchGlyphs (translate pat.toList.length pat.toList) name.toList

example : fnmatch "c.txt" "[!a-b]?t*t" = true ∧ fnmatch "-" "[a-]" = true ∧ fnmatch "[x" "[x" =
    true := by
  decide +kernel

/-! ### Generators -/

inductive Ending where
  | ended
  | raised (e : FsError)
  /-- The stack the model was given is too small. -/
  | running
  deriving DecidableEq, Repr

/-- What a generator has yielded and how it ended. -/
structure Yields where
  paths : List String
  ending : Ending
  deriving DecidableEq, Repr

namespace Yields

def nothing : Yields := ⟨[], .ended⟩

def one (p : String) : Yields := ⟨[p], .ended⟩

/-- One generator after the other. -/
def andThen (y z : Yields) : Yields :=
  if y.ending = .ended then ⟨y.paths ++ z.paths, z.ending⟩ else y

/-- A call that may raise, and what is done with its answer. -/
def call {α : Type} (answer : Except FsError α) (body : α → Yields) : Yields :=
  match answer with
  | .ok a => body a
  | .error e => ⟨[], .raised e⟩

/-- A loop. -/
def forEach (xs : List String) (body : String → Yields) : Yields :=
  xs.foldr (fun x z => (body x).andThen z) nothing

end Yields

/-! ### The walk -/

namespace AloelitePath

open Yields

/-- `__truediv__`; `_norm` is `listingPath`. -/
def truediv (p other : String) : String := listingPath (p ++ "/" ++ other)

/-- `name` -/
def name (p : String) : String := if p = "/" then "" else String.ofList (rpartition p.toList).2

/-- `iterdir` -/
def iterdir (E : Env) (k : Cipher) (db : Db) (mount : MountId) (p : String) :
    Except FsError (List String) := do
  let entries ← list E k db mount p
  return (entries.filter DirEntry.visible).map (fun e => truediv p e.name)

/-- `is_dir`, with the two errors that `_type` takes for an answer -/
def isDir (E : Env) (k : Cipher) (db : Db) (mount : MountId) (p : String) : Except FsError Bool :=
  match stat E k db mount p with
  | .ok row => .ok (row.type = .container)
  | .error .notFound => .ok false
  | .error (.notAContainer _) => .ok false
  | .error e => .error e

/-- `_walk`, `head` the first of the segments; `fuel` bounds the depth of the recursion. -/
def walk (E : Env) (k : Cipher) (db : Db) (mount : MountId) :
    ℕ → String → String → List String → Yields
  | 0, _, _, _ => ⟨[], .running⟩
  | fuel + 1, base, head, rest =>
    if head = "**" then
      andThen
        -- `**` takes no name and the pattern goes on here, or it takes a child and stays
        (match rest with
          | [] => one base
          | next :: rest' => walk E k db mount fuel base next rest')
        (call (iterdir E k db mount base) (fun children => forEach children (fun child =>
          call (isDir E k db mount child) (fun dir =>
            if dir then walk E k db mount fuel child head rest else nothing))))
    else
      call (iterdir E k db mount base) (fun children => forEach children (fun child =>
        if fnmatch (name child) head then
          match rest with
          | [] => one child
          | next :: rest' =>
            call (isDir E k db mount child) (fun dir =>
              if dir then walk E k db mount fuel child next rest' else nothing)
        else nothing))

/-- `glob` of the path made from `path` -/
def glob (E : Env) (k : Cipher) (db : Db) (mount : MountId) (path pattern : String) (fuel : ℕ) :
    Yields :=
  match splitPath pattern with
  | [] => nothing
  | head :: rest => walk E k db mount fuel (listingPath path) head rest

/-- `rglob` -/
def rglob (E : Env) (k : Cipher) (db : Db) (mount : MountId) (path pattern : String) (fuel : ℕ) :
    Yields :=
  glob E k db mount path ("**/" ++ pattern) fuel

end AloelitePath

/-! ### What a pattern matches -/

def isStars (seg : String) : Bool := seg = "**"

def fitsSegment (seg name : String) : Bool := fnmatch name seg

/-- What may end a path: a final `**` takes containers only. -/
def endsIn (segs : List String) (t : NodeType) : Bool := segs.getLast? ≠ some "**" ∨ t = .container

/-- The names divide among the segments. What a `**` takes before the last name is a
container as it has something below it. -/
def GlobMatches (segs names : List String) (t : NodeType) : Prop :=
  (∃ pieces, Divides isStars fitsSegment segs names pieces) ∧ endsIn segs t = true

/-- What is at or below a path. -/
def Beneath (db : Db) (mountPoint : NodeId) (path : String) (names : List String) (n : NodeId)
    (t : NodeType) : Prop :=
  ∃ top, resolve db mountPoint path = .ok top ∧
    ((names = [] ∧ n = top.node ∧ t = top.type) ∨
    (top.type = .container ∧ Seen db top.node names n t))

/-- The path of what is below another. -/
def pathBelow (path : String) (names : List String) : String :=
  "/" ++ "/".intercalate (splitPath path ++ names)

/-- With stack enough the generator ends, having yielded `ys`. -/
def Gives (run : ℕ → Yields) (ys : List String) : Prop := ∃ fuel, run fuel = ⟨ys, .ended⟩

/-- The generator ends and yields exactly the paths that match, each once. -/
def GlobExact (E : Env) (k : Cipher) (db : Db) (mount : MountId) (mountPoint : NodeId)
    (path pattern : String) : Prop :=
  ∃ ys, Gives (AloelitePath.glob E k db mount path pattern) ys ∧ ys.Nodup ∧
    ∀ q, q ∈ ys ↔ ∃ names n t, Beneath db mountPoint path names n t ∧
    GlobMatches (splitPath pattern) names t ∧
      q = pathBelow path names

variable {E : Env} {k : Cipher} {db : Db} {mount : MountId} {ctx : MountCtx} {c n : NodeId}
  {t : NodeType} {path pattern cur base head : String} {names rest segs : List String}
  {fuel more D : ℕ}

/-! ### More stack changes nothing -/

namespace Yields

variable {y y' z z' : Yields}

theorem andThen_more (h : (y.andThen z).ending ≠ .running) (hy : y.ending ≠ .running → y' = y)
    (hz : z.ending ≠ .running → z' = z) : y'.andThen z' = y.andThen z := by
  by_cases hend : y.ending = .ended
  · have hsame : y' = y := hy (by simp [hend])
    rw [andThen, if_pos hend] at h
    rw [hsame, hz h]
  · rw [andThen, if_neg hend] at h
    rw [hy h, andThen, andThen, if_neg hend, if_neg hend]

theorem call_more {α : Type} {answer : Except FsError α} {body body' : α → Yields}
    (h : (call answer body).ending ≠ .running)
    (hbody : ∀ a, (body a).ending ≠ .running → body' a = body a) :
    call answer body' = call answer body := by
  cases answer with
  | ok a => exact hbody a h
  | error e => rfl

theorem forEach_more {xs : List String} {body body' : String → Yields}
    (h : (forEach xs body).ending ≠ .running)
    (hbody : ∀ x, (body x).ending ≠ .running → body' x = body x) :
    forEach xs body' = forEach xs body := by
  induction xs with
  | nil => rfl
  | cons x xs ih => exact andThen_more h (hbody x) ih

theorem andThen_of_ended (h : y.ending = .ended) :
    y.andThen z = ⟨y.paths ++ z.paths, z.ending⟩ := by
  rw [andThen, if_pos h]

end Yields

namespace AloelitePath

open Yields

/-- The loop that goes on in the containers. -/
def goOn (E : Env) (k : Cipher) (db : Db) (mount : MountId) (fuel : ℕ) (head : String)
    (rest : List String) (child : String) : Yields :=
  call (isDir E k db mount child) (fun dir => if dir then
    walk E k db mount fuel child head rest else nothing)

theorem walk_stars_last : walk E k db mount (fuel + 1) base "**" [] =
    andThen (one base)
      (call (iterdir E k db mount base)
        (fun children => forEach children (goOn E k db mount fuel "**" []))) := by
  conv_lhs => unfold walk
  rw [if_pos rfl]
  rfl

theorem walk_stars {next : String} : walk E k db mount (fuel + 1) base "**" (next :: rest) =
    andThen (walk E k db mount fuel base next rest)
      (call (iterdir E k db mount base)
        (fun children => forEach children (goOn E k db mount fuel "**" (next :: rest)))) := by
  conv_lhs => unfold walk
  rw [if_pos rfl]
  rfl

theorem walk_last (hhead : head ≠ "**") : walk E k db mount (fuel + 1) base head [] =
    call (iterdir E k db mount base) (fun children => forEach children (fun child =>
      if fnmatch (name child) head then one child else nothing)) := by
  conv_lhs => unfold walk
  rw [if_neg hhead]

theorem walk_segment {next : String} (hhead : head ≠ "**") :
    walk E k db mount (fuel + 1) base head (next :: rest) =
    call (iterdir E k db mount base) (fun children => forEach children (fun child =>
      if fnmatch (name child) head then goOn E k db mount fuel next rest child else nothing)) := by
  conv_lhs => unfold walk
  rw [if_neg hhead]
  rfl

theorem walk_more (h : (walk E k db mount fuel base head rest).ending ≠ .running)
    (hle : fuel ≤ more) :
    walk E k db mount more base head rest = walk E k db mount fuel base head rest := by
  induction fuel generalizing more base head rest with
  | zero => exact absurd rfl h
  | succ fuel ih =>
    obtain ⟨more, rfl⟩ : ∃ m, more = m + 1 := ⟨more - 1, by omega⟩
    have hle' : fuel ≤ more := by omega
    have hgoOn : ∀ head rest child, (goOn E k db mount fuel head rest child).ending ≠ .running →
        goOn E k db mount more head rest child = goOn E k db mount fuel head rest child := by
      intro head rest child h
      apply call_more h
      intro dir h
      cases dir with
      | false => rfl
      | true => exact ih h hle'
    by_cases hstars : head = "**"
    · subst hstars
      cases rest with
      | nil =>
        rw [walk_stars_last] at h
        rw [walk_stars_last, walk_stars_last]
        apply andThen_more h (fun _ => rfl)
        exact fun h => call_more h (fun children h => forEach_more h (hgoOn _ _))
      | cons next rest =>
        rw [walk_stars] at h
        rw [walk_stars, walk_stars]
        apply andThen_more h (fun h => ih h hle')
        exact fun h => call_more h (fun children h => forEach_more h (hgoOn _ _))
    · cases rest with
      | nil => rw [walk_last hstars, walk_last hstars]
      | cons next rest =>
        rw [walk_segment hstars] at h
        rw [walk_segment hstars, walk_segment hstars]
        apply call_more h
        intro children h
        apply forEach_more h
        intro child h
        by_cases hfits : fnmatch (name child) head = true
        · rw [if_pos hfits] at h
          rw [if_pos hfits, if_pos hfits]
          exact hgoOn _ _ child h
        · rw [if_neg hfits, if_neg hfits]

theorem glob_more (h : (glob E k db mount path pattern fuel).ending ≠ .running)
    (hle : fuel ≤ more) :
    glob E k db mount path pattern more = glob E k db mount path pattern fuel := by
  rw [glob] at h
  rw [glob, glob]
  cases hsegs : splitPath pattern with
  | nil => rfl
  | cons head rest =>
    rw [hsegs] at h
    exact walk_more h hle

/-- What the generator yields is one list. -/
theorem gives_unique {ys ys' : List String} (h : Gives (glob E k db mount path pattern) ys)
    (h' : Gives (glob E k db mount path pattern) ys') : ys = ys' := by
  obtain ⟨fuel, hfuel⟩ := h
  obtain ⟨fuel', hfuel'⟩ := h'
  have hone := glob_more (by rw [hfuel]; exact Ending.noConfusion) (le_max_left fuel fuel')
  have hother := glob_more (by rw [hfuel']; exact Ending.noConfusion) (le_max_right fuel fuel')
  exact congrArg Yields.paths ((hfuel.symm.trans hone.symm).trans (hother.trans hfuel'))

end AloelitePath

end Aloelite
