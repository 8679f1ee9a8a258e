import Aloelite.Http

/-! Paths of `dav.py`: what `_norm_path` makes of a decoded URL path, and when one path lies
below another. -/
namespace Aloelite

/-- What a normal path may have between two slashes. -/
def PlainSegment (seg : Text) : Prop := seg ≠ [] ∧ '/' ∉ seg ∧ seg ≠ ['.'] ∧ seg ≠ ['.', '.']

instance (seg : Text) : Decidable (PlainSegment seg) := inferInstanceAs (Decidable (_ ∧ _ ∧ _ ∧ _))

/-- A mount-relative path as `_norm_path` leaves it. -/
structure DavPath where
  segs : List Text
  plain : ∀ seg ∈ segs, PlainSegment seg
  deriving DecidableEq, Repr

namespace DavPath

variable {p q : DavPath}

/-- `"/" + "/".join(segs)` -/
def text (p : DavPath) : Text := '/' :: ['/'].intercalate p.segs

/-- The path `/`. -/
def root : DavPath := ⟨[], fun _ h => absurd h List.not_mem_nil⟩

@[ext] theorem ext_segs (h : p.segs = q.segs) : p = q := by
  cases p
  cases q
  cases h
  rfl

/-- Each segment with its slash before it. -/
def body (segs : List Text) : Text := segs.flatMap (fun seg => '/' :: seg)

theorem body_cons (seg : Text) (segs : List Text) :
    body (seg :: segs) = '/' :: (seg ++ body segs) := List.flatMap_cons

theorem slash_intercalate (seg : Text) (segs : List Text) :
    '/' :: ['/'].intercalate (seg :: segs) = body (seg :: segs) := by
  induction segs generalizing seg with
  | nil => simp [body]
  | cons next segs ih =>
    rw [body_cons, ← ih next]
    simp [List.intercalate]

theorem text_of_ne (h : p.segs ≠ []) : p.text = body p.segs := by
  obtain ⟨seg, segs, hsegs⟩ := List.exists_cons_of_ne_nil h
  rw [text, hsegs, slash_intercalate]

/-- What stands before the first slash is where two texts with such a slash agree. -/
theorem append_inj_of_slash {a b u v : Text} (ha : '/' ∉ a) (hb : '/' ∉ b)
    (hu : u.head?.getD '/' = '/')
    (hv : v.head?.getD '/' = '/') (h : a ++ u = b ++ v) : a = b ∧ u = v := by
  have htake : ∀ {a u : Text}, '/' ∉ a → u.head?.getD '/' = '/' → (a ++ u).takeWhile (· ≠ '/') =
      a := by
    intro a u ha hu
    rw [List.takeWhile_append_of_pos (fun c hc => decide_eq_true (ne_of_mem_of_not_mem hc ha))]
    cases u with
    | nil => exact List.append_nil a
    | cons c u =>
      have hc : c = '/' := hu
      rw [hc, List.takeWhile_cons_of_neg (by decide), List.append_nil]
  have hab : a = b := by
    rw [← htake ha hu, ← htake hb hv, h]
  subst hab
  exact ⟨rfl, List.append_cancel_left h⟩

theorem body_head (segs : List Text) : (body segs).head?.getD '/' = '/' := by
  cases segs with
  | nil => rfl
  | cons seg segs => rfl

/-- A text of segments goes on behind another at a slash just when the segments do. -/
theorem body_prefix_iff {ps qs : List Text} (hp : ∀ seg ∈ ps, '/' ∉ seg)
    (hq : ∀ seg ∈ qs, '/' ∉ seg) :
    body ps ++ ['/'] <+: body qs ↔ ps <+: qs ∧ ps ≠ qs := by
  induction ps generalizing qs with
  | nil =>
    cases qs with
    | nil => simp [body]
    | cons b qs => simp [body]
  | cons a ps ih =>
    cases qs with
    | nil => simp [body]
    | cons b qs =>
      have hpa : '/' ∉ a := hp a List.mem_cons_self
      have hqb : '/' ∉ b := hq b List.mem_cons_self
      have htail := ih (fun seg h => hp seg (List.mem_cons_of_mem _ h))
          (fun seg h => hq seg (List.mem_cons_of_mem _ h))
      rw [body_cons, body_cons, List.cons_append, List.cons_prefix_cons, List.cons_prefix_cons,
        List.append_assoc, ne_eq,
        List.cons.injEq, not_and]
      constructor
      · rintro ⟨-, rest, hrest⟩
        rw [List.append_assoc] at hrest
        have hhead : (body ps ++ ['/'] ++ rest).head?.getD '/' = '/' := by
          cases ps with
          | nil => rfl
          | cons seg ps => rfl
        obtain ⟨hab, hbody⟩ := append_inj_of_slash hpa hqb hhead (body_head qs) hrest
        obtain ⟨hps, hne⟩ := htail.mp ⟨rest, hbody⟩
        exact ⟨⟨hab, hps⟩, fun _ => hne⟩
      · rintro ⟨⟨hab, hps⟩, hne⟩
        subst hab
        exact ⟨rfl, (List.prefix_append_right_inj a).mpr (htail.mpr ⟨hps, hne rfl⟩)⟩

end DavPath

/-! ### `_norm_path` -/

/-- A turn of the loop of `_norm_path`. -/
def normStep (segs : List Text) (seg : Text) : List Text :=
  if seg = [] ∨ seg = ['.'] then segs
  else if seg = ['.', '.'] then segs.dropLast
  else segs ++ [seg]

theorem normStep_plain {segs : List Text} {seg : Text} (h : ∀ s ∈ segs, PlainSegment s)
    (hseg : '/' ∉ seg) :
    ∀ s ∈ normStep segs seg, PlainSegment s := by
  intro s hs
  unfold normStep at hs
  split at hs
  next => exact h s hs
  next hne =>
    rw [not_or] at hne
    split at hs
    next => exact h s (List.mem_of_mem_dropLast hs)
    next hup =>
      rcases List.mem_append.mp hs with hs | hs
      · exact h s hs
      · rw [List.mem_singleton.mp hs]
        exact ⟨hne.1, hseg, hne.2, hup⟩

theorem not_slash_of_mem_splitOn {raw seg : Text} (h : seg ∈ raw.splitOn '/') : '/' ∉ seg := by
  intro hslash
  rw [List.splitOn, List.splitOnP_eq_splitOnPPrepend] at h
  have hsep := (mem_piece_splitOnPPrepend raw [] (by simp) seg h '/' hslash).1
  simp at hsep

/-- `_norm_path`, of a text that is decoded already. -/
def normPath (raw : Text) : DavPath where
  segs := (raw.splitOn '/').foldl normStep []
  plain := by
    have hfold : ∀ parts segs : List Text, (∀ seg ∈ parts, '/' ∉ seg) →
        (∀ seg ∈ segs, PlainSegment seg) →
        ∀ seg ∈ parts.foldl normStep segs, PlainSegment seg := by
      intro parts
      induction parts with
      | nil => exact fun _ _ h => h
      | cons part parts ih =>
        intro segs hparts hsegs
        exact ih _ (fun seg h => hparts seg (List.mem_cons_of_mem _ h))
          (normStep_plain hsegs (hparts part List.mem_cons_self))
    exact hfold _ [] (fun _ => not_slash_of_mem_splitOn) (fun _ h => absurd h List.not_mem_nil)

theorem foldl_normStep {segs parts : List Text} (h : ∀ seg ∈ parts, PlainSegment seg) :
    parts.foldl normStep segs = segs ++ parts := by
  induction parts generalizing segs with
  | nil => exact (List.append_nil segs).symm
  | cons part parts ih =>
    obtain ⟨hne, -, hdot, hup⟩ := h part List.mem_cons_self
    have hstep : normStep segs part = segs ++ [part] := by
      rw [normStep, if_neg (not_or.mpr ⟨hne, hdot⟩), if_neg hup]
    rw [List.foldl_cons, hstep, ih (fun seg hs => h seg (List.mem_cons_of_mem _ hs)),
      List.append_assoc]
    rfl

theorem splitOn_slash_cons (t : Text) : ('/' :: t).splitOn '/' = [] :: t.splitOn '/' := by
  rw [List.splitOn, List.splitOn, List.splitOnP_cons_eq_if_modifyHead, if_pos (by decide)]

/-- A normal path is read back as it is. -/
theorem normPath_text (p : DavPath) : normPath p.text = p := by
  apply DavPath.ext_segs
  change (p.text.splitOn '/').foldl normStep [] = p.segs
  rw [DavPath.text, splitOn_slash_cons, List.foldl_cons]
  by_cases hsegs : p.segs = []
  · rw [hsegs]
    rfl
  · rw [List.splitOn_intercalate '/' (fun seg h => (p.plain seg h).2.1) hsegs]
    exact foldl_normStep p.plain

theorem DavPath.text_injective : Function.Injective DavPath.text :=
  Function.LeftInverse.injective normPath_text

/-! ### Below a path -/

/-- `p if p.endswith("/") else p + "/"` -/
def slashed (t : Text) : Text := if ['/'] <:+ t then t else t ++ ['/']

namespace DavPath

variable {p q : DavPath}

theorem text_root : root.text = ['/'] := rfl

theorem body_not_slashed {seg : Text} {segs : List Text} (h : ∀ s ∈ seg :: segs, PlainSegment s) :
    ¬ ['/'] <:+ body (seg :: segs) := by
  obtain ⟨init, last, hlast⟩ : ∃ init last, seg :: segs = init ++ [last] :=
    ⟨_, _, (List.dropLast_append_getLast (List.cons_ne_nil seg segs)).symm⟩
  have hplain : PlainSegment last := h last (by
    rw [hlast]
    exact List.mem_append_right _ (List.mem_singleton_self last))
  obtain ⟨front, c, hfront⟩ : ∃ front c, last = front ++ [c] :=
    ⟨_, _, (List.dropLast_append_getLast hplain.1).symm⟩
  have hbody : body (seg :: segs) = body init ++ '/' :: front ++ [c] := by
    rw [hlast, body, List.flatMap_append, List.flatMap_singleton, hfront]
    simp [body]
  intro hsuffix
  obtain ⟨rest, hrest⟩ := hsuffix
  rw [hbody] at hrest
  have hc : '/' = c := List.singleton_injective (List.append_inj' hrest rfl).2
  apply hplain.2.1
  rw [hfront, hc]
  exact List.mem_append_right _ (List.mem_singleton_self _)

theorem slashed_text (p : DavPath) : slashed p.text = body p.segs ++ ['/'] := by
  cases hsegs : p.segs with
  | nil =>
    have hroot : p = root := ext_segs hsegs
    subst hroot
    rfl
  | cons seg segs =>
    have hne : p.segs ≠ [] := by
      rw [hsegs]
      exact List.cons_ne_nil seg segs
    rw [slashed, text_of_ne hne, hsegs, if_neg (body_not_slashed (hsegs ▸ p.plain))]

/-- The string test for a path below another is the test on segments. -/
theorem slashed_prefix_iff : p ≠ q → (slashed p.text <+: q.text ↔ p.segs <+: q.segs) := by
  intro hne
  have hsegs : p.segs ≠ q.segs := fun h => hne (ext_segs h)
  rw [slashed_text]
  by_cases hq : q.segs = []
  · have hroot : q = root := ext_segs hq
    subst hroot
    obtain ⟨seg, segs, hp⟩ := List.exists_cons_of_ne_nil hsegs
    constructor
    · intro h
      have hlen := h.length_le
      rw [hp, body_cons, text_root] at hlen
      simp at hlen
    · intro h
      exact absurd (List.prefix_nil.mp h) hsegs
  · rw [text_of_ne hq,
      body_prefix_iff (fun s h => (p.plain s h).2.1) (fun s h => (q.plain s h).2.1)]
    exact ⟨fun h => h.1, fun h => ⟨h, hsegs⟩⟩

end DavPath

end Aloelite
