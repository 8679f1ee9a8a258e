import Aloelite.DavLocks
import Aloelite.Http
import Aloelite.Multipart
import Aloelite.Library.Scanning

/-! The `If:` header of `davlock.py`: what its three patterns read, the scan that parses a
header, and the lock tokens that a request shows with it. -/
namespace Aloelite
open Scanning

/-- One of `IfList.conditions`. -/
structure Condition where
  negated : Bool
  token : Option Text
  entity : Option Text
  deriving DecidableEq, Repr

abbrev IfList := List Condition

structure IfHeader where
  tagged : List (Option Text × IfList)
  deriving DecidableEq, Repr

/-- `[^c]*` up to the first `c`, here `stop`, with what follows that. -/
def upTo (stop : Char) (cs : Text) : Option (Text × Text) :=
  match cs.dropWhile (· ≠ stop) with
  | _ :: rest => some (cs.takeWhile (· ≠ stop), rest)
  | [] => none

/-- `_TAG_RE`, `<([^>]*)>\s*(?=\()`, at the head of a text. -/
def tagAt : Text → Option (Text × Text)
  | '<' :: cs =>
    match upTo '>' cs with
    | some (tag, rest) =>
      if (rest.dropWhile isSpace).head? = some '(' then some (tag, rest.dropWhile isSpace) else none
    | none => none
  | _ => none

/-- `_LIST_RE`, `\(([^)]*)\)`, at the head of a text. -/
def listAt : Text → Option (Text × Text)
  | '(' :: cs => upTo ')' cs
  | _ => none

/-- `Not\s+`, the letters in either case. -/
def notAt : Text → Option Text
  | n :: o :: t :: w :: cs =>
    if n.toLower = 'n' ∧ o.toLower = 'o' ∧ t.toLower = 't' ∧ isSpace w then
      some (cs.dropWhile isSpace) else none
  | _ => none

/-- What `(W/)?` leaves, the letter in either case. -/
def afterWeak : Text → Text
  | w :: '/' :: cs => if w.toLower = 'w' then cs else w :: '/' :: cs
  | cs => cs

/-- `(W/)?"([^"]*)"\s*\]` -/
def entityAt (cs : Text) : Option (Text × Text) :=
  match quotedAt (afterWeak cs) with
  | some (entity, rest) =>
    match rest.dropWhile isSpace with
    | ']' :: rest' => some (entity, rest')
    | _ => none
  | none => none

/-- `<([^>]*)>|\[\s*(W/)?"([^"]*)"\s*\]`: a state token or an entity tag, with what follows. -/
def stateAt : Text → Option ((Option Text × Option Text) × Text)
  | '<' :: cs => (upTo '>' cs).map (fun p => ((some p.1, none), p.2))
  | '[' :: cs => (entityAt (cs.dropWhile isSpace)).map (fun p => ((none, some p.1), p.2))
  | _ => none

/-- `_COND_RE` at the head of a text; an empty state token counts as none. -/
def condAt (cs : Text) : Option (Condition × Text) :=
  (stateAt ((notAt cs).getD cs)).map
    (fun p => (⟨(notAt cs).isSome, p.1.1.filter (· ≠ []), p.1.2⟩, p.2))

def condRule : Rule Unit Char Condition := fun _ cs => (condAt cs).map (fun p => ((), [p.1], p.2))

/-- `_parse_list` -/
def parseList (body : Text) : IfList := scan condRule () body

/-- One turn of `parse_if`'s loop: a resource tag is kept for the lists behind it. -/
def listRule : Rule (Option Text) Char (Option Text × IfList) := fun tag cs =>
  match tagAt cs with
  | some (t, rest) => some (some t, [], rest)
  | none => (listAt cs).map (fun p => (tag, [(tag, parseList p.1)], p.2))

/-- `parse_if` -/
def parseIf (raw : Text) : IfHeader := ⟨scan listRule none (strip raw)⟩

namespace IfHeader

variable (header : IfHeader)

def tokens : List Text := header.tagged.flatMap (fun p => p.2.filterMap Condition.token)

/-- `_etag_eq` -/
def etagEq (candidate current : Text) : Bool :=
  S3.stripQuotes candidate =
    S3.stripQuotes ((strip current).dropWhile (fun c => c = 'W' || c = '/'))

/-- Whether one condition is met by the tokens held and the current entity tag. -/
def conditionPasses (held : List Text) (etag : Option Text) (c : Condition) : Bool :=
  let tagMatches := c.entity.any (fun entity => etag.any (fun current => etagEq entity current))
  c.token.elim tagMatches (fun token => held.any (· = token)) != c.negated

/-- `_list_passes` -/
def listPasses (list : IfList) (held : List Text) (etag : Option Text) : Bool :=
  list.all (conditionPasses held etag)

/-- `stateFor` gives the tokens held on a tagged resource and its entity tag, under `none` those
of the request's own. -/
def evaluate (stateFor : Option Text → Option (List Text × Option Text)) : Bool :=
  header.tagged.isEmpty || header.tagged.any (fun p =>
    let state := (stateFor p.1).getD ((stateFor none).getD ([], none))
    listPasses p.2 state.1 state.2)

end IfHeader

/-! ### What the patterns read -/

def Spaces (w : Text) : Prop := ∀ c ∈ w, isSpace c = true

section Reading

variable {stop : Char} {t rest cs w : Text}

theorem upTo_append (h : stop ∉ t) : upTo stop (t ++ stop :: rest) = some (t, rest) := by
  have hall : ∀ c ∈ t, decide (c ≠ stop) = true := by
    intro c hc
    rw [decide_eq_true_iff]
    exact fun heq => h (heq ▸ hc)
  have hstop : decide (stop ≠ stop) = false := by simp
  rw [upTo, List.dropWhile_append_of_pos hall, List.takeWhile_append_of_pos hall,
    List.dropWhile_cons_of_neg (by simp),
    List.takeWhile_cons_of_neg (by simp), List.append_nil]

theorem upTo_eq_some (h : upTo stop cs = some (t, rest)) : cs = t ++ stop :: rest ∧ stop ∉ t := by
  rw [upTo] at h
  rcases hdrop : cs.dropWhile (· ≠ stop) with _ | ⟨c, rest'⟩
  · rw [hdrop] at h
    cases h
  · rw [hdrop] at h
    obtain ⟨rfl, rfl⟩ := Prod.mk.inj (Option.some.inj h)
    have hc : c = stop := by
      have hhead := List.head?_dropWhile_not (· ≠ stop) cs
      rw [hdrop] at hhead
      simpa using hhead
    refine ⟨?_, ?_⟩
    · have hcut : cs.takeWhile (· ≠ stop) ++ cs.dropWhile (· ≠ stop) = cs :=
        List.takeWhile_append_dropWhile
      rw [hdrop, hc] at hcut
      exact hcut.symm
    · intro hmem
      simpa using List.mem_takeWhile_imp hmem

theorem upTo_append_blank (hstop : isSpace stop = false) (hw : Spaces w) :
    upTo stop (cs ++ w) = (upTo stop cs).map (fun p => (p.1, p.2 ++ w)) := by
  rcases h : upTo stop cs with _ | ⟨t, rest⟩
  · have hnone : stop ∉ cs ++ w := by
      rw [List.mem_append]
      rintro (hmem | hmem)
      · obtain ⟨u, v, hsplit, hu⟩ := List.eq_append_cons_of_mem hmem
        rw [hsplit, upTo_append hu] at h
        cases h
      · exact absurd (hw stop hmem) (by rw [hstop]; exact Bool.false_ne_true)
    rcases h' : upTo stop (cs ++ w) with _ | ⟨t, rest⟩
    · rfl
    · obtain ⟨heq, -⟩ := upTo_eq_some h'
      exact absurd (heq ▸ List.mem_append_right _ List.mem_cons_self) hnone
  · obtain ⟨rfl, hmem⟩ := upTo_eq_some h
    rw [List.append_assoc, List.cons_append, upTo_append hmem]
    rfl

theorem dropWhile_blank (hw : Spaces w) : (w ++ cs).dropWhile isSpace = cs.dropWhile isSpace :=
  List.dropWhile_append_of_pos hw

theorem dropWhile_suffix : cs.dropWhile isSpace <:+ cs := List.dropWhile_suffix isSpace

/-- A resource tag stands before a list. -/
theorem tagAt_append (ht : '>' ∉ t) (hw : Spaces w) :
    tagAt ('<' :: (t ++ '>' :: (w ++ '(' :: rest))) = some (t, '(' :: rest) := by
  have hopen : ('(' :: rest).dropWhile isSpace = '(' :: rest :=
    List.dropWhile_cons_of_neg (by decide)
  rw [tagAt]
  simp only [upTo_append ht, dropWhile_blank hw, hopen, List.head?_cons, if_true]

theorem tagAt_suffix (h : tagAt cs = some (t, rest)) : ∃ c cs', cs = c :: cs' ∧ rest <:+ cs' := by
  rw [tagAt.eq_def] at h
  split at h
  · rename_i cs'
    rcases hupTo : upTo '>' cs' with _ | ⟨tag, behind⟩
    · simp only [hupTo, reduceCtorEq] at h
    · simp only [hupTo] at h
      split at h
      · obtain ⟨rfl, rfl⟩ := Prod.mk.inj (Option.some.inj h)
        obtain ⟨rfl, -⟩ := upTo_eq_some hupTo
        exact ⟨_, _, rfl,
          dropWhile_suffix.trans ((List.suffix_cons _ _).trans (List.suffix_append _ _))⟩
      · cases h
  · cases h

theorem listAt_eq_some (h : listAt cs = some (t, rest)) :
    cs = '(' :: (t ++ ')' :: rest) ∧ ')' ∉ t := by
  rw [listAt.eq_def] at h
  split at h
  · obtain ⟨rfl, hmem⟩ := upTo_eq_some h
    exact ⟨rfl, hmem⟩
  · cases h

theorem notAt_suffix (h : notAt cs = some rest) : ∃ c cs', cs = c :: cs' ∧ rest <:+ cs' := by
  rw [notAt.eq_def] at h
  split at h
  · split at h
    · rename_i n o t w cs' _
      obtain rfl := Option.some.inj h
      refine ⟨_, _, rfl, dropWhile_suffix.trans ?_⟩
      exact (List.suffix_cons w _).trans ((List.suffix_cons t _).trans (List.suffix_cons o _))
    · cases h
  · cases h

theorem quotedAt_suffix (h : quotedAt cs = some (t, rest)) : rest <:+ cs := by
  rw [quotedAt.eq_def] at h
  split at h
  · rename_i cs'
    rw [List.span_eq_takeWhile_dropWhile] at h
    rcases hdrop : cs'.dropWhile (· ≠ '"') with _ | ⟨c, rest'⟩
    · rw [hdrop] at h
      cases h
    · rw [hdrop] at h
      obtain ⟨-, rfl⟩ := Prod.mk.inj (Option.some.inj h)
      have hbehind : c :: rest' <:+ cs' := hdrop ▸ List.dropWhile_suffix (· ≠ '"')
      exact (List.suffix_cons c rest').trans (hbehind.trans (List.suffix_cons _ cs'))
  · cases h

theorem quotedAt_append (h : '"' ∉ t) : quotedAt ('"' :: (t ++ '"' :: rest)) = some (t, rest) := by
  have hall : ∀ c ∈ t, decide (c ≠ '"') = true := by
    intro c hc
    rw [decide_eq_true_iff]
    exact fun heq => h (heq ▸ hc)
  rw [quotedAt, List.span_eq_takeWhile_dropWhile, List.dropWhile_append_of_pos hall,
    List.takeWhile_append_of_pos hall,
    List.dropWhile_cons_of_neg (by simp), List.takeWhile_cons_of_neg (by simp), List.append_nil]

theorem afterWeak_suffix : afterWeak cs <:+ cs := by
  rw [afterWeak.eq_def]
  split
  · split
    · exact (List.suffix_cons _ _).trans (List.suffix_cons _ _)
    · exact List.suffix_refl _
  · exact List.suffix_refl _

theorem entityAt_suffix (h : entityAt cs = some (t, rest)) : rest <:+ cs := by
  rw [entityAt] at h
  rcases hquoted : quotedAt (afterWeak cs) with _ | ⟨entity, behind⟩
  · simp only [hquoted, reduceCtorEq] at h
  · simp only [hquoted] at h
    split at h
    · rename_i rest' hclose
      obtain ⟨-, rfl⟩ := Prod.mk.inj (Option.some.inj h)
      have hbehind : ']' :: rest' <:+ behind := hclose ▸ dropWhile_suffix
      exact (List.suffix_cons _ _).trans
        (hbehind.trans ((quotedAt_suffix hquoted).trans afterWeak_suffix))
    · cases h

/-- A state token is read where it stands between angle brackets. -/
theorem stateAt_eq_some {p : Option Text × Option Text} (h : stateAt cs = some (p, rest)) :
    (∃ c cs', cs = c :: cs' ∧ rest <:+ cs') ∧ ∀ t, p.1 = some t →
      cs = '<' :: (t ++ '>' :: rest) := by
  rw [stateAt.eq_def] at h
  split at h
  · obtain ⟨q, hq, heq⟩ := Option.map_eq_some_iff.mp h
    obtain ⟨rfl, rfl⟩ := Prod.mk.inj heq
    obtain ⟨rfl, -⟩ := upTo_eq_some hq
    refine ⟨⟨_, _, rfl, (List.suffix_cons _ _).trans (List.suffix_append _ _)⟩, ?_⟩
    intro t ht
    rw [← Option.some.inj ht]
  · obtain ⟨q, hq, heq⟩ := Option.map_eq_some_iff.mp h
    obtain ⟨rfl, rfl⟩ := Prod.mk.inj heq
    refine ⟨⟨_, _, rfl, (entityAt_suffix hq).trans dropWhile_suffix⟩, ?_⟩
    intro t ht
    cases ht
  · cases h

theorem condAt_eq_some {c : Condition} (h : condAt cs = some (c, rest)) :
    (∃ d cs', cs = d :: cs' ∧ rest <:+ cs') ∧ ∀ t, c.token = some t →
      '<' :: (t ++ ['>']) <:+: cs := by
  obtain ⟨p, hp, heq⟩ := Option.map_eq_some_iff.mp h
  obtain ⟨rfl, rfl⟩ := Prod.mk.inj heq
  obtain ⟨⟨d, cs', hcons, hrest⟩, htoken⟩ := stateAt_eq_some hp
  have hsuffix : (notAt cs).getD cs <:+ cs ∧
      ((notAt cs).isSome → ∃ d cs', cs = d :: cs' ∧ (notAt cs).getD cs <:+ cs') := by
    rcases hnot : notAt cs with _ | behind
    · exact ⟨List.suffix_refl cs, fun hsome => absurd hsome Bool.false_ne_true⟩
    · obtain ⟨d, cs', rfl, hbehind⟩ := notAt_suffix hnot
      exact ⟨hbehind.trans (List.suffix_cons d cs'), fun _ => ⟨d, cs', rfl, hbehind⟩⟩
  refine ⟨?_, ?_⟩
  · rcases hnot : notAt cs with _ | behind
    · rw [hnot] at hcons
      exact ⟨d, cs', hcons, hrest⟩
    · obtain ⟨e, es, hes, hbehind⟩ := hsuffix.2 (by rw [hnot]; rfl)
      rw [hcons] at hbehind
      exact ⟨e, es, hes, hrest.trans ((List.suffix_cons d cs').trans hbehind)⟩
  · intro t ht
    have hp1 := (Option.filter_eq_some_iff.mp ht).1
    have hfound := htoken t hp1
    have hinfix : '<' :: (t ++ ['>']) <:+: (notAt cs).getD cs := by
      rw [hfound]
      exact ⟨[], p.2, by simp⟩
    exact hinfix.trans hsuffix.1.isInfix

end Reading

theorem condRule_eats : Rule.Eats condRule := by
  intro s cs s' out rest h
  obtain ⟨p, hp, heq⟩ := Option.map_eq_some_iff.mp h
  obtain ⟨-, rfl⟩ := Prod.mk.inj (Prod.mk.inj heq).2
  exact (condAt_eq_some hp).1

theorem listRule_eats : Rule.Eats listRule := by
  intro s cs s' out rest h
  rw [listRule] at h
  rcases htag : tagAt cs with _ | ⟨t, behind⟩
  · simp only [htag] at h
    obtain ⟨p, hp, heq⟩ := Option.map_eq_some_iff.mp h
    obtain ⟨-, rfl⟩ := Prod.mk.inj (Prod.mk.inj heq).2
    obtain ⟨rfl, -⟩ := listAt_eq_some hp
    exact ⟨_, _, rfl, (List.suffix_cons _ _).trans (List.suffix_append _ _)⟩
  · simp only [htag] at h
    obtain ⟨-, rfl⟩ := Prod.mk.inj (Prod.mk.inj (Option.some.inj h)).2
    exact tagAt_suffix htag

/-! ### Where tokens come from -/

section Origin

variable {raw body t : Text}

theorem token_of_parseList {c : Condition} (hc : c ∈ parseList body) (ht : c.token = some t) :
    '<' :: (t ++ ['>']) <:+: body := by
  obtain ⟨s, s', out, rest, front, hfront, hread, hmem⟩ := mem_scan condRule_eats hc
  obtain ⟨p, hp, heq⟩ := Option.map_eq_some_iff.mp hread
  obtain ⟨rfl, -⟩ := Prod.mk.inj (Prod.mk.inj heq).2
  obtain rfl := List.mem_singleton.mp hmem
  exact ((condAt_eq_some hp).2 t ht).trans hfront.isInfix

/-- Every token of a header stands in it, in angle brackets and inside a list. -/
theorem token_of_parseIf (h : t ∈ (parseIf raw).tokens) :
    ∃ body, '(' :: (body ++ [')']) <:+: raw ∧ '<' :: (t ++ ['>']) <:+: body := by
  obtain ⟨⟨tag, list⟩, hlist, ht⟩ := List.mem_flatMap.mp h
  obtain ⟨c, hc, htoken⟩ := List.mem_filterMap.mp ht
  obtain ⟨s, s', out, rest, front, hfront, hread, hmem⟩ := mem_scan listRule_eats hlist
  have hstrip : strip raw <:+: raw :=
    (List.rdropWhile_prefix isSpace _).isInfix.trans (List.dropWhile_suffix isSpace).isInfix
  rw [listRule] at hread
  rcases htag : tagAt front with _ | ⟨tag', behind⟩
  · simp only [htag] at hread
    obtain ⟨p, hp, heq⟩ := Option.map_eq_some_iff.mp hread
    obtain ⟨rfl, -⟩ := Prod.mk.inj (Prod.mk.inj heq).2
    obtain ⟨-, rfl⟩ := Prod.mk.inj (List.mem_singleton.mp hmem)
    refine ⟨p.1, ?_, token_of_parseList hc htoken⟩
    have hopen : '(' :: (p.1 ++ [')']) <:+: front := by
      rw [(listAt_eq_some hp).1]
      exact ⟨[], p.2, by simp⟩
    exact hopen.trans (hfront.isInfix.trans hstrip)
  · simp only [htag] at hread
    obtain ⟨rfl, -⟩ := Prod.mk.inj (Prod.mk.inj (Option.some.inj hread)).2
    exact absurd hmem List.not_mem_nil

end Origin

/-! ### Blanks around a header -/

section Blanks

variable {tag : Option Text} {cs w raw : Text} {c : Char}

theorem listRule_of_ne (hopen : c ≠ '<') (hlist : c ≠ '(') : listRule tag (c :: cs) = none := by
  have htag : tagAt (c :: cs) = none := by
    rw [tagAt.eq_def]
    split
    · rename_i heq
      exact absurd (List.cons.inj heq).1 hopen
    · rfl
  have hat : listAt (c :: cs) = none := by
    rw [listAt.eq_def]
    split
    · rename_i heq
      exact absurd (List.cons.inj heq).1 hlist
    · rfl
  rw [listRule, htag, hat]
  rfl

theorem condAt_of_ne (hstate : c ≠ '<') (hentity : c ≠ '[') (hnot : c.toLower ≠ 'n') :
    condAt (c :: cs) = none := by
  have hn : notAt (c :: cs) = none := by
    rw [notAt.eq_def]
    split
    · rename_i heq
      rw [if_neg]
      rintro ⟨hlower, -⟩
      exact hnot ((List.cons.inj heq).1 ▸ hlower)
    · rfl
  have hs : stateAt (c :: cs) = none := by
    rw [stateAt.eq_def]
    split
    · rename_i heq
      exact absurd (List.cons.inj heq).1 hstate
    · rename_i heq
      exact absurd (List.cons.inj heq).1 hentity
    · rfl
  rw [condAt, hn, Option.getD_none, hs]
  rfl

theorem ne_of_isSpace {d : Char} (hc : isSpace c = true) (hd : isSpace d = false) : c ≠ d := by
  intro heq
  rw [heq, hd] at hc
  cases hc

/-- No blank is a letter. -/
theorem toLower_of_isSpace (hc : isSpace c = true) : c.toLower ≠ 'n' := by
  intro heq
  delta Char.toLower at heq
  split at heq
  · rename_i hupper
    have hlow : 65 ≤ c.toNat := UInt32.le_iff_toNat_le.mp hupper.1
    have hhigh : c.toNat ≤ 90 := UInt32.le_iff_toNat_le.mp hupper.2
    simp only [isSpace, Bool.or_eq_true, Bool.and_eq_true, decide_eq_true_eq] at hc
    omega
  · rw [heq] at hc
    exact absurd hc (by decide)

theorem blank_or_head (hw : Spaces w) : w = [] ∨ ∃ c w', w = c :: w' ∧ isSpace c = true := by
  cases w with
  | nil => exact Or.inl rfl
  | cons c w' => exact Or.inr ⟨c, w', rfl, hw c List.mem_cons_self⟩

theorem listRule_blank (hc : isSpace c = true) : listRule tag (c :: cs) = none :=
  listRule_of_ne (ne_of_isSpace hc (by decide)) (ne_of_isSpace hc (by decide))

theorem condRule_blank {s : Unit} (hc : isSpace c = true) : condRule s (c :: cs) = none := by
  rw [condRule, condAt_of_ne (ne_of_isSpace hc (by decide)) (ne_of_isSpace hc (by decide))
    (toLower_of_isSpace hc)]
  rfl

theorem dropWhile_append_blank (hw : Spaces w) : (cs ++ w).dropWhile isSpace =
    if cs.dropWhile isSpace = [] then [] else cs.dropWhile isSpace ++ w := by
  have hblank : w.dropWhile isSpace = [] := List.dropWhile_eq_nil_iff.mpr hw
  simp only [List.dropWhile_append, List.isEmpty_iff, hblank]

theorem tagAt_append_blank (hw : Spaces w) :
    tagAt ('<' :: (cs ++ w)) = (tagAt ('<' :: cs)).map (fun p => (p.1, p.2 ++ w)) := by
  rw [tagAt, tagAt, upTo_append_blank (by decide) hw]
  rcases upTo '>' cs with _ | ⟨t, rest⟩
  · rfl
  · simp only [Option.map_some, dropWhile_append_blank hw]
    by_cases hnil : rest.dropWhile isSpace = []
    · simp only [hnil, if_true]
      rfl
    have hhead : (rest.dropWhile isSpace ++ w).head? = (rest.dropWhile isSpace).head? :=
      List.head?_append_of_ne_nil _ hnil
    simp only [if_neg hnil, hhead]
    by_cases hopen : (rest.dropWhile isSpace).head? = some '('
    · simp only [if_pos hopen, Option.map_some]
    · simp only [if_neg hopen, Option.map_none]

/-- Blanks behind a header change nothing of what is read before them. -/
theorem listRule_append_blank (hw : Spaces w) :
    listRule tag (cs ++ w) = (listRule tag cs).map (fun r => (r.1, r.2.1, r.2.2 ++ w)) := by
  cases cs with
  | nil =>
    rw [listRule_eats.nil, List.nil_append]
    rcases blank_or_head hw with rfl | ⟨c, w', rfl, hc⟩
    · exact listRule_eats.nil
    · exact listRule_blank hc
  | cons c cs =>
    by_cases hopen : c = '<'
    · subst hopen
      rw [List.cons_append, listRule, listRule, tagAt_append_blank hw]
      rcases tagAt ('<' :: cs) with _ | ⟨t, rest⟩
      · rfl
      · rfl
    by_cases hlist : c = '('
    · subst hlist
      have hat : listAt ('(' :: (cs ++ w)) = (listAt ('(' :: cs)).map (fun p => (p.1, p.2 ++ w)) :=
        upTo_append_blank (by decide) hw
      have htag (ds : Text) : tagAt ('(' :: ds) = none := rfl
      rw [List.cons_append, listRule, listRule, htag, htag, hat]
      simp only [Option.map_map]
      rfl
    · rw [List.cons_append, listRule_of_ne hopen hlist, listRule_of_ne hopen hlist]
      rfl

/-- `parse_if` strips its text, but need not. -/
theorem scan_strip : scan listRule tag (strip raw) = scan listRule tag raw := by
  have hback : scan listRule tag (raw.dropWhile isSpace) = scan listRule tag (strip raw) := by
    have hcut : strip raw ++ (raw.dropWhile isSpace).rtakeWhile isSpace = raw.dropWhile isSpace :=
      List.rdropWhile_append_rtakeWhile
    have hw : Spaces ((raw.dropWhile isSpace).rtakeWhile isSpace) :=
      fun c hc => List.mem_rtakeWhile_imp hc
    conv_lhs => rw [← hcut]
    apply scan_append_idle listRule_eats (fun t cs => listRule_append_blank hw)
    intro t c w' hsuffix
    exact listRule_blank (hw c (hsuffix.subset List.mem_cons_self))
  have hfront : scan listRule tag raw = scan listRule tag (raw.dropWhile isSpace) := by
    have hcut : raw.takeWhile isSpace ++ raw.dropWhile isSpace = raw :=
      List.takeWhile_append_dropWhile
    conv_lhs => rw [← hcut]
    apply scan_skip_front
    intro c w' hsuffix
    exact listRule_blank (List.mem_takeWhile_imp (hsuffix.subset List.mem_cons_self))
  rw [hfront, hback]

end Blanks

/-! ### The grammar -/

/-- `State-token | "[" entity-tag "]"`, on tokens and tags that the patterns can hold. -/
inductive StateText : Text → Option Text → Option Text → Prop
  | token {t : Text} (hne : t ≠ []) (hstop : '>' ∉ t) (hlist : ')' ∉ t) :
    StateText ('<' :: (t ++ ['>'])) (some t) none
  | entity {w w' mark e : Text} (hw : Spaces w) (hw' : Spaces w') (hmark : mark = [] ∨
    mark = ['W', '/']) (hstop : '"' ∉ e)
      (hlist : ')' ∉ e) : StateText ('[' :: (w ++ (mark ++ '"' :: (e ++ '"' :: (w' ++ [']'])))))
        none (some e)

/-- `Condition = ["Not"] (State-token | "[" entity-tag "]")`. The `Not` stands with at least
one blank behind it: without one `_COND_RE` reads the condition as if it were not there. -/
inductive CondText : Text → Condition → Prop
  | plain {cs : Text} {token entity : Option Text} (hstate : StateText cs token entity) :
    CondText cs ⟨false, token, entity⟩
  | negated {w cs : Text} {token entity : Option Text} (hne : w ≠ []) (hw : Spaces w)
    (hstate : StateText cs token entity) :
      CondText ('N' :: 'o' :: 't' :: (w ++ cs)) ⟨true, token, entity⟩

/-- What stands between the brackets of a `List`. -/
inductive ListText : Text → IfList → Prop
  | done {w : Text} (hw : Spaces w) : ListText w []
  | cond {w cs rest : Text} {c : Condition} {list : IfList} (hw : Spaces w) (hcond : CondText cs c)
    (hrest : ListText rest list) :
      ListText (w ++ (cs ++ rest)) (c :: list)

/-- `If = 1*No-tag-list | 1*Tagged-list`, behind the resource tag `tag`. -/
inductive IfText : Option Text → Text → List (Option Text × IfList) → Prop
  | done {tag : Option Text} {w : Text} (hw : Spaces w) : IfText tag w []
  | list {tag : Option Text} {w body rest : Text} {list : IfList}
    {tagged : List (Option Text × IfList)} (hw : Spaces w)
      (hbody : ListText body list) (hrest : IfText tag rest tagged) :
      IfText tag (w ++ '(' :: (body ++ ')' :: rest)) ((tag, list) :: tagged)
  | tagged {tag : Option Text} {w w' t body rest : Text} {list : IfList}
    {tagged : List (Option Text × IfList)} (hw : Spaces w)
      (hw' : Spaces w') (ht : '>' ∉ t) (hbody : ListText body list)
        (hrest : IfText (some t) rest tagged) :
      IfText tag (w ++ '<' :: (t ++ '>' :: (w' ++ '(' :: (body ++ ')' :: rest))))
        ((some t, list) :: tagged)

section Grammar

variable {cs w rest body text : Text} {token entity tag : Option Text} {c : Condition}
  {list : IfList} {tagged : List (Option Text × IfList)}

theorem not_mem_blank {d : Char} (hw : Spaces w) (hd : isSpace d = false) : d ∉ w := by
  intro hmem
  exact ne_of_isSpace (hw d hmem) hd rfl

theorem entityAt_append {w' mark e : Text} (hw' : Spaces w') (hmark : mark = [] ∨ mark = ['W', '/'])
    (hstop : '"' ∉ e) :
    entityAt (mark ++ '"' :: (e ++ '"' :: (w' ++ ']' :: rest))) = some (e, rest) := by
  have hweak : afterWeak (mark ++ '"' :: (e ++ '"' :: (w' ++ ']' :: rest))) =
      '"' :: (e ++ '"' :: (w' ++ ']' :: rest)) := by
    rcases hmark with rfl | rfl
    · rw [List.nil_append, afterWeak.eq_def]
      split
      · rename_i heq
        obtain ⟨rfl, -⟩ := List.cons.inj heq
        rw [if_neg (by decide), heq]
      · rfl
    · rfl
  have hclose : (']' :: rest).dropWhile isSpace = ']' :: rest :=
    List.dropWhile_cons_of_neg (by decide)
  rw [entityAt, hweak, quotedAt_append hstop]
  simp only [dropWhile_blank hw', hclose]

/-- What the grammar derives for a condition's state is read as such, whatever follows. -/
theorem stateAt_of_stateText (h : StateText cs token entity) (rest : Text) :
    stateAt (cs ++ rest) = some ((token, entity), rest) := by
  cases h with
  | token hne hstop hlist =>
    rw [List.cons_append, List.append_assoc, List.singleton_append, stateAt, upTo_append hstop]
    rfl
  | @entity w w' mark e hw hw' hmark hstop hlist =>
    have hhead : (mark ++ '"' :: (e ++ '"' :: (w' ++ ']' :: rest))).dropWhile isSpace =
        mark ++ '"' :: (e ++ '"' :: (w' ++ ']' :: rest)) := by
      rcases hmark with rfl | rfl
      · exact List.dropWhile_cons_of_neg (by decide)
      · exact List.dropWhile_cons_of_neg (by decide)
    have hsame : '[' :: (w ++ (mark ++ '"' :: (e ++ '"' :: (w' ++ [']'])))) ++ rest =
        '[' :: (w ++ (mark ++ '"' :: (e ++ '"' :: (w' ++ ']' :: rest)))) := by simp
    rw [hsame, stateAt, dropWhile_blank hw, hhead, entityAt_append hw' hmark hstop]
    rfl

theorem StateText.head (h : StateText cs token entity) :
    ∃ d cs', cs = d :: cs' ∧ (d = '<' ∨ d = '[') := by
  cases h with
  | token => exact ⟨_, _, rfl, Or.inl rfl⟩
  | entity => exact ⟨_, _, rfl, Or.inr rfl⟩

theorem StateText.token_ne (h : StateText cs token entity) : token.filter (· ≠ []) = token := by
  cases h with
  | token hne => exact Option.filter_some_pos (decide_eq_true hne)
  | entity => rfl

theorem condAt_of_condText (h : CondText cs c) (rest : Text) :
    condAt (cs ++ rest) = some (c, rest) := by
  cases h with
  | plain hstate =>
    obtain ⟨d, cs', rfl, hd⟩ := hstate.head
    have hnot : notAt (d :: cs' ++ rest) = none := by
      rw [List.cons_append, notAt.eq_def]
      split
      · rename_i heq
        rw [if_neg]
        rintro ⟨hlower, -⟩
        rw [← (List.cons.inj heq).1] at hlower
        rcases hd with rfl | rfl
        · exact absurd hlower (by decide)
        · exact absurd hlower (by decide)
      · rfl
    rw [condAt, hnot, Option.getD_none, stateAt_of_stateText hstate rest,
      Option.map_some, hstate.token_ne]
    rfl
  | @negated w cs token entity hne hw hstate =>
    obtain ⟨b, w', rfl⟩ := List.exists_cons_of_ne_nil hne
    obtain ⟨d, cs', rfl, hd⟩ := hstate.head
    have hblank : Spaces w' := fun x hx => hw x (List.mem_cons_of_mem b hx)
    have hhead : (d :: cs' ++ rest).dropWhile isSpace = d :: cs' ++ rest := by
      rcases hd with rfl | rfl
      · exact List.dropWhile_cons_of_neg (by decide)
      · exact List.dropWhile_cons_of_neg (by decide)
    have hnot : notAt ('N' :: 'o' :: 't' :: (b :: w' ++ d :: cs') ++ rest) =
        some (d :: cs' ++ rest) := by
      have hlower : 'N'.toLower = 'n' ∧ 'o'.toLower = 'o' ∧ 't'.toLower = 't' := by decide
      have hb : isSpace b = true := hw b List.mem_cons_self
      simp only [List.cons_append, List.append_assoc, notAt, hlower, hb, and_self, if_true,
        dropWhile_blank hblank]
      exact congrArg some hhead
    rw [condAt, hnot, Option.getD_some, stateAt_of_stateText hstate rest,
      Option.map_some, hstate.token_ne]
    rfl

theorem parseList_of_listText (h : ListText body list) : parseList body = list := by
  induction h with
  | @done w hw =>
    have hskip : scan condRule () (w ++ []) = scan condRule () [] := by
      apply scan_skip_front
      intro c w' hsuffix
      exact condRule_blank (hw c (hsuffix.subset List.mem_cons_self))
    rwa [List.append_nil] at hskip
  | @cond w cs rest c list hw hcond hrest ih =>
    have hskip : scan condRule () (w ++ (cs ++ rest)) = scan condRule () (cs ++ rest) := by
      apply scan_skip_front
      intro c w' hsuffix
      exact condRule_blank (hw c (hsuffix.subset List.mem_cons_self))
    have hread : condRule () (cs ++ rest) = some ((), [c], rest) := by
      rw [condRule, condAt_of_condText hcond rest]
      rfl
    rw [parseList, hskip, scan_read condRule_eats hread]
    exact congrArg (c :: ·) ih

theorem StateText.not_close (h : StateText cs token entity) : ')' ∉ cs := by
  cases h with
  | token hne hstop hlist => simp [hlist]
  | @entity w w' mark e hw hw' hmark hstop hlist =>
    have hblank : ')' ∉ w ∧ ')' ∉ w' :=
      ⟨not_mem_blank hw (by decide), not_mem_blank hw' (by decide)⟩
    rcases hmark with rfl | rfl
    · simp [hlist, hblank]
    · simp [hlist, hblank]

theorem ListText.not_close (h : ListText body list) : ')' ∉ body := by
  induction h with
  | done hw => exact not_mem_blank hw (by decide)
  | @cond w cs rest c list hw hcond hrest ih =>
    have hcs : ')' ∉ cs := by
      cases hcond with
      | plain hstate => exact hstate.not_close
      | @negated w' cs' token entity hne hw' hstate =>
        have hblank : ')' ∉ w' := not_mem_blank hw' (by decide)
        simp [hstate.not_close, hblank]
    have hblank : ')' ∉ w := not_mem_blank hw (by decide)
    simp [hblank, hcs, ih]

theorem scan_list (hw : Spaces w) (hbody : ListText body list) :
    scan listRule tag (w ++ '(' :: (body ++ ')' :: rest)) =
    (tag, list) :: scan listRule tag rest := by
  have hskip : scan listRule tag (w ++ '(' :: (body ++ ')' :: rest)) =
      scan listRule tag ('(' :: (body ++ ')' :: rest)) := by
    apply scan_skip_front
    intro c w' hsuffix
    exact listRule_blank (hw c (hsuffix.subset List.mem_cons_self))
  have hread : listRule tag ('(' :: (body ++ ')' :: rest)) = some (tag, [(tag, list)], rest) := by
    have htag : tagAt ('(' :: (body ++ ')' :: rest)) = none := rfl
    have hlist : listAt ('(' :: (body ++ ')' :: rest)) = some (body, rest) :=
      upTo_append hbody.not_close
    rw [listRule, htag, hlist]
    simp only [Option.map_some, parseList_of_listText hbody]
  rw [hskip, scan_read listRule_eats hread]
  rfl

theorem scan_of_ifText (h : IfText tag text tagged) : scan listRule tag text = tagged := by
  induction h with
  | @done tag w hw =>
    have hskip : scan listRule tag (w ++ []) = scan listRule tag [] := by
      apply scan_skip_front
      intro c w' hsuffix
      exact listRule_blank (hw c (hsuffix.subset List.mem_cons_self))
    rwa [List.append_nil] at hskip
  | list hw hbody hrest ih => rw [scan_list hw hbody, ih]
  | @tagged tag w w' t body rest list tagged hw hw' ht hbody hrest ih =>
    have hskip : scan listRule tag
        (w ++ '<' :: (t ++ '>' :: (w' ++ '(' :: (body ++ ')' :: rest)))) =
        scan listRule tag ('<' :: (t ++ '>' :: (w' ++ '(' :: (body ++ ')' :: rest)))) := by
      apply scan_skip_front
      intro c v hsuffix
      exact listRule_blank (hw c (hsuffix.subset List.mem_cons_self))
    have hread : listRule tag ('<' :: (t ++ '>' :: (w' ++ '(' :: (body ++ ')' :: rest)))) =
        some (some t, [], '(' :: (body ++ ')' :: rest)) := by
      rw [listRule, tagAt_append ht hw']
    have hlist : scan listRule (some t) ([] ++ '(' :: (body ++ ')' :: rest)) =
        (some t, list) :: scan listRule (some t) rest :=
      scan_list (fun _ h => absurd h List.not_mem_nil) hbody
    rw [hskip, scan_read listRule_eats hread, List.nil_append]
    exact hlist.trans (congrArg _ ih)

end Grammar

/-! ### What a request's header says -/

/-- What a condition is about: a token held, or the current entity tag. -/
def Condition.Matches (held : List Text) (etag : Option Text) (c : Condition) : Prop :=
  match c.token with
  | some t => t ∈ held
  | none => ∃ e ∈ c.entity, ∃ current ∈ etag, IfHeader.etagEq e current = true

def Condition.Holds (held : List Text) (etag : Option Text) (c : Condition) : Prop :=
  c.Matches held etag ↔ c.negated = false

theorem IfHeader.conditionPasses_iff {held : List Text} {etag : Option Text} {c : Condition} :
    conditionPasses held etag c = true ↔ c.Holds held etag := by
  rcases c with ⟨negated, token, entity⟩
  have hmatched (b : Bool) (p : Prop) (hb : b = true ↔ p) : (b != negated) = true ↔
      (p ↔ negated = false) := by
    rw [← hb]
    cases b <;> cases negated <;> decide
  cases token with
  | some t =>
    apply hmatched
    simp only [Option.elim_some, List.any_eq_true, decide_eq_true_eq, exists_eq_right]
    rfl
  | none =>
    apply hmatched
    simp only [Option.elim_none, Option.any_eq_true]
    rfl

/-- Lists are alternatives; the conditions of a list hold together. -/
theorem IfHeader.evaluate_iff {header : IfHeader}
    {stateFor : Option Text → Option (List Text × Option Text)} :
    header.evaluate stateFor = true ↔ header.tagged = [] ∨ ∃ p ∈ header.tagged, ∀ c ∈ p.2,
      c.Holds ((stateFor p.1).getD ((stateFor none).getD ([], none))).1
        ((stateFor p.1).getD ((stateFor none).getD ([], none))).2 := by
  rw [evaluate, Bool.or_eq_true, List.isEmpty_iff, List.any_eq_true]
  apply or_congr_right
  apply exists_congr
  intro p
  apply and_congr_right
  intro _
  rw [listPasses, List.all_eq_true]
  simp only [conditionPasses_iff]

/-- A header of the grammar is read as what it says: its lists in order, each under the resource
tag before it, with their conditions. -/
theorem if_header_read {raw : Text} {tagged : List (Option Text × IfList)}
    (h : IfText none raw tagged) :
    parseIf raw = ⟨tagged⟩ := by
  rw [parseIf, scan_strip, scan_of_ifText h]

theorem if_header_read_tagged : parseIf "<u> (Not <s> [W/\"e\"])".toList =
    ⟨[(some ['u'], [⟨true, some ['s'], none⟩, ⟨false, none, some ['e']⟩])]⟩ := by
  have hnil : Spaces [] := fun _ h => absurd h List.not_mem_nil
  have hblank : Spaces [' '] := List.forall_mem_singleton.mpr (by decide)
  have hentity : StateText ('[' :: ([] ++ (['W', '/'] ++ '"' :: (['e'] ++ '"' :: ([] ++ [']'])))))
      none (some ['e']) :=
    .entity hnil hnil (Or.inr rfl) (by decide) (by decide)
  have hnegated :=
    CondText.negated (by decide) hblank (.token (t := ['s']) (by decide) (by decide) (by decide))
  have hbody := ListText.cond hnil hnegated (.cond hblank (.plain hentity) (.done hnil))
  have hraw : "<u> (Not <s> [W/\"e\"])".toList =
      ['<', 'u', '>', ' ', '(', 'N', 'o', 't', ' ', '<', 's', '>', ' ', '[', 'W',
      '/', '"', 'e', '"', ']', ')'] := by decide
  rw [hraw]
  exact if_header_read (.tagged hnil hblank (t := ['u']) (by decide) hbody (.done hnil))

/-- A `Not` right before its token is passed over. -/
example : parseIf "(Not<s>)".toList = ⟨[(none, [⟨false, some ['s'], none⟩])]⟩ := by decide +kernel

/-- `_submitted_tokens` -/
def submittedTokens (raw : Text) : List String := (parseIf raw).tokens.map String.ofList

theorem mem_submittedTokens {raw : Text} {token : String} :
    token ∈ submittedTokens raw ↔ token.toList ∈ (parseIf raw).tokens := by
  rw [submittedTokens, List.mem_map]
  constructor
  · rintro ⟨t, ht, rfl⟩
    rwa [String.toList_ofList]
  · intro h
    exact ⟨token.toList, h, String.ofList_toList⟩

theorem mem_tokens {header : IfHeader} {t : Text} :
    t ∈ header.tokens ↔ ∃ p ∈ header.tagged, ∃ c ∈ p.2, c.token = some t := by
  rw [IfHeader.tokens, List.mem_flatMap]
  simp only [List.mem_filterMap]

/-- A live lock of `volume` that stands in the way of a request on `path`, or on all below it. -/
def LockRegistry.InTheWay (now : ℚ) (r : LockRegistry) (volume : String) (path : DavPath)
    (deep : Bool) (lk : DavLock) : Prop :=
  lk ∈ r.byToken ∧ ¬ lk.Expired now ∧ lk.volume = volume ∧
    (Governs lk.depth lk.path path ∨ deep = true ∧ path.segs <+: lk.path.segs)

/-- A request gets past the locks in its way only where its header spells the token of each, in
angle brackets inside a list; a header of the grammar gets past them just where some condition
of it names each. -/
theorem lock_needs_its_token {w : LockWorld} (hw : w.Reached) {now : ℚ} {volume : String}
    {path : DavPath} {deep : Bool} {raw : Text} :
    ((w.reg.requireUnlocked now volume path (submittedTokens raw) deep).2.isOk →
      ∀ lk, w.reg.InTheWay now volume path deep lk →
      ∃ body, '(' :: (body ++ [')']) <:+: raw ∧ '<' :: (lk.token.toList ++ ['>']) <:+: body) ∧
    ∀ tagged, IfText none raw tagged →
      ((w.reg.requireUnlocked now volume path (submittedTokens raw) deep).2.isOk ↔
      ∀ lk, w.reg.InTheWay now volume path deep lk → ∃ p ∈ tagged, ∃ c ∈ p.2, c.token =
        some lk.token.toList) := by
  have hpass : (w.reg.requireUnlocked now volume path (submittedTokens raw) deep).2.isOk ↔
      ∀ lk, w.reg.InTheWay now volume path deep lk → lk.token.toList ∈ (parseIf raw).tokens := by
    rw [LockRegistry.requireUnlocked_isOk_iff hw.exclusive]
    constructor
    · intro h lk hway
      exact mem_submittedTokens.mp (h lk hway.1 hway.2.1 hway.2.2.1 hway.2.2.2)
    · intro h lk hlk hlive hvolume hgoverns
      exact mem_submittedTokens.mpr (h lk ⟨hlk, hlive, hvolume, hgoverns⟩)
  refine ⟨?_, ?_⟩
  · intro hok lk hway
    exact token_of_parseIf (hpass.mp hok lk hway)
  · intro tagged htext
    have hread : parseIf raw = ⟨tagged⟩ := by
      rw [parseIf, scan_strip, scan_of_ifText htext]
    rw [hpass, hread]
    simp only [mem_tokens]

theorem lock_needs_its_token_locked :
    ∃ body, '(' :: (body ++ [')']) <:+: "(Not <x> <t>)".toList ∧
      '<' :: ("t".toList ++ ['>']) <:+: body := by
  have hreached : lockedOnce.Reached := by
    refine ⟨0, (GuardedRuns.Run.refl _).snoc ⟨le_rfl, ?_⟩⟩
    exact fun _ h => absurd h List.not_mem_nil
  have hpass : (lockedOnce.reg.requireUnlocked 0 "v" pathAB
      (submittedTokens "(Not <x> <t>)".toList) false).2.isOk := by
    decide +kernel
  refine (lock_needs_its_token hreached).1 hpass
    (LockRegistry.granting 0 "t" "v" pathA .infinity "" (some 1)) ?_
  refine ⟨by decide +kernel, by decide +kernel, rfl, Or.inl (Or.inr ⟨rfl, ?_⟩)⟩
  exact ⟨["b".toList], rfl⟩

end Aloelite
