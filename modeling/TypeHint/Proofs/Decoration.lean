import TypeHint.DocComment
import TypeHint.Proofs.Pieces

/-!
# Comments with and without decoration

A comment is usually written with a delimiter before and after it and a star in front of each line.
What it says is what its bare lines say: the reader drops the delimiters, the stars and the blanks,
and blank lines before and after the text count for nothing.

* `DocComment.decorated`        bare lines with delimiters, stars, blanks and line ends of any kind
* `DocComment.undecorated`      the same lines, joined by newlines
* `DocComment.lines_decorated`  the reader finds the bare lines
* `DocComment.FirstRun`         the lines that make up the description
* `ofText_decorated`            decoration changes nothing
-/

namespace TypeHint

namespace DocComment

open Text

variable {s w w' : List Char} {ls e e' run : List (List Char)}

/-! ## decorated comments -/

/-- blanks that stay on one line -/
structure Margin where
  text : List Char
  blank : Blank text
  oneLine : '\n' ∉ text

/-- a line of text without blanks at its ends and without a star in front -/
structure BareLine where
  text : List Char
  oneLine : '\n' ∉ text
  tight : Tight text
  unstarred : text.head? ≠ some '*'

inductive LineEnd where
  | lf | crlf

def LineEnd.text : LineEnd → List Char
  | lf => ['\n']
  | crlf => ['\r', '\n']

/-- what stands around the text of a line -/
structure Decor where
  /-- before the star -/
  indent : Margin
  /-- between the star and the text -/
  gap : Margin
  /-- after the text -/
  tail : Margin
  lineEnd : LineEnd

/-- the first and the last line of a comment, with whatever blanks are before and after it -/
structure Frame where
  before : List Char
  /-- after the delimiter of the first line -/
  opening : Margin
  lineEnd : LineEnd
  /-- before the delimiter of the last line -/
  closing : Margin
  after : List Char
  before_blank : Blank before
  after_blank : Blank after

def Decor.starred (d : Decor) (text : List Char) : List Char :=
  d.indent.text ++ '*' :: (d.gap.text ++ text) ++ d.tail.text

def inner (f : Frame) (ls : List (Decor × BareLine)) : List Char :=
  f.opening.text ++ f.lineEnd.text ++
    (ls.flatMap fun l => l.1.starred l.2.text ++ l.1.lineEnd.text) ++ f.closing.text

def decorated (f : Frame) (ls : List (Decor × BareLine)) : String :=
  String.ofList (f.before ++ (['/', '*', '*'] ++ inner f ls ++ ['*', '/']) ++ f.after)

def undecorated (ls : List BareLine) : String :=
  String.ofList (['\n'].intercalate (ls.map BareLine.text))

/-! ## one line -/

theorem undecorate_surround (hw : Blank w) (hw' : Blank w') (s : List Char) :
    undecorate (w ++ s ++ w') = undecorate s := by
  rw [undecorate, trim_surround hw hw', ← undecorate]

theorem undecorate_blank (hw : Blank w) : undecorate w = [] := by
  have h := undecorate_surround hw .nil []
  rwa [List.append_nil, List.append_nil] at h

theorem dropFront_append (front s : List Char) : dropFront front (front ++ s) = s := by
  rw [dropFront, List.isPrefixOf?_eq_some_iff_append_eq.mpr rfl]
  rfl

theorem dropBack_append (s back : List Char) : dropBack back (s ++ back) = s := by
  rw [dropBack, List.isSuffixOf?_eq_some_iff_append_eq.mpr rfl]
  rfl

theorem dropFront_of_not_prefix {front : List Char} (h : ¬ front <+: s) :
    dropFront front s = s := by
  unfold dropFront
  cases e : front.isPrefixOf? s with
  | none => rfl
  | some u => exact absurd ⟨u, List.isPrefixOf?_eq_some_iff_append_eq.mp e⟩ h

theorem dropBack_of_not_suffix {back : List Char} (h : ¬ back <:+ s) : dropBack back s = s := by
  unfold dropBack
  cases e : back.isSuffixOf? s with
  | none => rfl
  | some u => exact absurd ⟨u, List.isSuffixOf?_eq_some_iff_append_eq.mp e⟩ h

theorem undecorate_bare (l : BareLine) : undecorate l.text = l.text := by
  have hstar : ¬ ['*'] <+: l.text := by
    rintro ⟨u, hu⟩
    exact l.unstarred (hu ▸ rfl)
  rw [undecorate, trim_of_tight l.tight, dropFront_of_not_prefix hstar, trim_of_tight l.tight]

theorem undecorate_starred (d : Decor) (l : BareLine) :
    undecorate (d.starred l.text) = l.text := by
  have hstar : trim ('*' :: (d.gap.text ++ l.text)) = '*' :: trimEnd (d.gap.text ++ l.text) := by
    rw [trim, trimStart_of_head rfl, trimEnd_cons rfl]
  have hgap := trim_surround d.gap.blank .nil l.text
  rw [List.append_nil] at hgap
  rw [Decor.starred, undecorate_surround d.indent.blank d.tail.blank, undecorate, hstar]
  rw [show '*' :: trimEnd _ = ['*'] ++ trimEnd _ from rfl, dropFront_append, trim_trimEnd, hgap,
    trim_of_tight l.tight]

/-! ## the lines of a text -/

/-- the lines of a text between delimiters -/
def linesOf (s : List Char) : List (List Char) := (pieces '\n' s).map undecorate

def BlankLines (ls : List (List Char)) : Prop := ∀ l ∈ ls, l = []

/-- the second list is the first between blank lines -/
def Padded (ls ls' : List (List Char)) : Prop :=
  ∃ e e', BlankLines e ∧ BlankLines e' ∧ ls' = e ++ ls ++ e'

theorem BlankLines.append (he : BlankLines e) (he' : BlankLines e') : BlankLines (e ++ e') :=
  fun l hl => (List.mem_append.mp hl).elim (he l) (he' l)

theorem BlankLines.nil : BlankLines [] := fun _ hl => absurd hl List.not_mem_nil

theorem BlankLines.single : BlankLines [[]] := fun _ hl => List.mem_singleton.mp hl

theorem Padded.trans {ls₁ ls₂ ls₃ : List (List Char)} (h₁ : Padded ls₁ ls₂)
    (h₂ : Padded ls₂ ls₃) : Padded ls₁ ls₃ := by
  obtain ⟨e₁, e₁', he₁, he₁', rfl⟩ := h₁
  obtain ⟨e₂, e₂', he₂, he₂', rfl⟩ := h₂
  exact ⟨e₂ ++ e₁, e₁' ++ e₂', he₂.append he₁, he₁'.append he₂', by simp⟩

theorem blankLines_map {ps : List (List Char)} (hps : ∀ p ∈ ps, Blank p) :
    BlankLines (ps.map undecorate) := by
  intro l hl
  obtain ⟨p, hp, rfl⟩ := List.mem_map.mp hl
  exact undecorate_blank (hps p hp)

theorem padded_blank_append (hw : Blank w) (s : List Char) :
    Padded (linesOf s) (linesOf (w ++ s)) := by
  obtain ⟨ps, p, q, qs, hps, hs, hws⟩ := pieces_append '\n' w s
  have hblank : ∀ r ∈ ps ++ [p], Blank r := fun r hr => hw.pieces (hps ▸ hr)
  have hq := undecorate_surround (hblank p (by simp)) .nil q
  rw [List.append_nil] at hq
  refine ⟨ps.map undecorate, [], blankLines_map fun r hr => hblank r (by simp [hr]), .nil, ?_⟩
  rw [linesOf, linesOf, hws, hs, List.map_append, List.map_cons, List.map_cons, hq,
    List.append_nil]

theorem padded_append_blank (hw : Blank w) (s : List Char) :
    Padded (linesOf s) (linesOf (s ++ w)) := by
  obtain ⟨ps, p, q, qs, hs, hqs, hsw⟩ := pieces_append '\n' s w
  have hblank : ∀ r ∈ q :: qs, Blank r := fun r hr => hw.pieces (hqs ▸ hr)
  have hp := undecorate_surround .nil (hblank q (by simp)) p
  rw [List.nil_append] at hp
  refine ⟨[], qs.map undecorate, .nil, blankLines_map fun r hr => hblank r (by simp [hr]), ?_⟩
  rw [linesOf, linesOf, hsw, hs, List.map_append, List.map_append, List.map_cons, hp,
    List.nil_append, List.append_assoc]
  rfl

/-- trimming a text takes away blank lines at its ends and nothing else -/
theorem padded_trim (s : List Char) : Padded (linesOf (trim s)) (linesOf s) := by
  obtain ⟨w, w', hw, hw', hs⟩ := exists_trim s
  have h := (padded_blank_append hw (trim s)).trans (padded_append_blank hw' (w ++ trim s))
  rwa [hs] at h

theorem linesOf_line (hs : '\n' ∉ s) (end_ : LineEnd) (u : List Char) :
    linesOf (s ++ end_.text ++ u) = undecorate s :: linesOf u := by
  cases end_ with
  | lf =>
    show linesOf (s ++ ['\n'] ++ u) = _
    rw [linesOf, List.append_assoc, List.singleton_append, pieces_cut, pieces_of_notMem hs]
    rfl
  | crlf =>
    have hcr : '\n' ∉ s ++ ['\r'] := by simpa using hs
    have hblank : undecorate (s ++ ['\r']) = undecorate s :=
      undecorate_surround .nil (by decide) s
    show linesOf (s ++ ['\r', '\n'] ++ u) = _
    rw [show s ++ ['\r', '\n'] ++ u = (s ++ ['\r']) ++ '\n' :: u by simp, linesOf, pieces_cut,
      pieces_of_notMem hcr, List.map_append, List.map_singleton, hblank]
    rfl

theorem Margin.linesOf (m : Margin) : linesOf m.text = [[]] := by
  rw [DocComment.linesOf, pieces_of_notMem m.oneLine, List.map_singleton, undecorate_blank m.blank]

theorem newline_notMem_starred (d : Decor) (l : BareLine) : '\n' ∉ d.starred l.text := by
  have hindent := d.indent.oneLine
  have hgap := d.gap.oneLine
  have htail := d.tail.oneLine
  have htext := l.oneLine
  simp [Decor.starred, *]

theorem linesOf_starred (ls : List (Decor × BareLine)) (closing : Margin) :
    linesOf ((ls.flatMap fun l => l.1.starred l.2.text ++ l.1.lineEnd.text) ++ closing.text) =
      ls.map (·.2.text) ++ [[]] := by
  induction ls with
  | nil => exact closing.linesOf
  | cons l ls ih =>
    rw [List.flatMap_cons, List.append_assoc, linesOf_line (newline_notMem_starred l.1 l.2), ih,
      undecorate_starred]
    rfl

/-! ## the lines of a comment -/

theorem body_decorated (f : Frame) (ls : List (Decor × BareLine)) :
    body (decorated f ls).toList = inner f ls := by
  have htight : Tight (['/', '*', '*'] ++ inner f ls ++ ['*', '/']) := by
    refine ⟨rfl, ?_⟩
    rw [List.getLast?_append]
    rfl
  rw [decorated, String.toList_ofList, body, trim_surround f.before_blank f.after_blank,
    trim_of_tight htight, List.append_assoc, dropFront_append, dropBack_append]

/-- the reader finds the bare lines, between two blank ones -/
theorem lines_decorated (f : Frame) (ls : List (Decor × BareLine)) :
    lines (decorated f ls) = [] :: (ls.map (·.2.text) ++ [[]]) := by
  show linesOf (body (decorated f ls).toList) = _
  rw [body_decorated, inner, List.append_assoc, linesOf_line f.opening.oneLine,
    undecorate_blank f.opening.blank, linesOf_starred]

theorem linesOf_undecorated {ls : List BareLine} (hne : ls ≠ []) :
    linesOf (undecorated ls).toList = ls.map BareLine.text := by
  have hone : ∀ p ∈ ls.map BareLine.text, '\n' ∉ p := by
    intro p hp
    obtain ⟨l, -, rfl⟩ := List.mem_map.mp hp
    exact l.oneLine
  rw [undecorated, String.toList_ofList, linesOf, pieces_intercalate hone (by simpa using hne),
    List.map_map]
  exact List.map_congr_left fun l _ => undecorate_bare l

/-- a decorated comment has the lines of the bare text, and blank lines around them -/
theorem padded_decorated (f : Frame) (ls : List (Decor × BareLine))
    (hfront : ¬ ['/', '*', '*'] <+: trim (undecorated (ls.map Prod.snd)).toList)
    (hback : ¬ ['*', '/'] <:+ trim (undecorated (ls.map Prod.snd)).toList) :
    Padded (lines (undecorated (ls.map Prod.snd))) (lines (decorated f ls)) := by
  have hbody : lines (undecorated (ls.map Prod.snd)) =
      linesOf (trim (undecorated (ls.map Prod.snd)).toList) := by
    show linesOf (body _) = _
    rw [body, dropFront_of_not_prefix hfront, dropBack_of_not_suffix hback]
  cases ls with
  | nil => exact ⟨[], [[]], .nil, .single, lines_decorated f []⟩
  | cons l ls =>
    have hne : (l :: ls).map Prod.snd ≠ [] := List.cons_ne_nil _ _
    have hbare := padded_trim (undecorated ((l :: ls).map Prod.snd)).toList
    rw [← hbody, linesOf_undecorated hne, List.map_map] at hbare
    exact hbare.trans ⟨[[]], [[]], .single, .single, lines_decorated f (l :: ls)⟩

/-! ## what the lines say -/

/-- the first run of lines with text, up to a blank line after it or the first tag; it is empty if
there is no line with text before the first tag -/
def FirstRun (ls run : List (List Char)) : Prop :=
  ∃ blanks rest, ls = blanks ++ run ++ rest ∧ BlankLines blanks ∧
    (∀ l ∈ run, l ≠ [] ∧ l.head? ≠ some '@') ∧
    ∀ l, rest.head? = some l → l.head? = some '@' ∨ l = [] ∧ run ≠ []

theorem not_startsTag {l : List Char} (hl : l.head? ≠ some '@') : startsTag l = false :=
  beq_eq_false_iff_ne.mpr hl

theorem exists_run (ls : List (List Char)) : ∃ run rest, ls = run ++ rest ∧
    (∀ l ∈ run, l ≠ [] ∧ l.head? ≠ some '@') ∧
    ∀ l, rest.head? = some l → l.head? = some '@' ∨ l = [] := by
  induction ls with
  | nil => exact ⟨[], [], rfl, by simp, by simp⟩
  | cons l ls ih =>
    by_cases hl : l.head? = some '@' ∨ l = []
    · exact ⟨[], l :: ls, rfl, by simp, fun x hx => Option.some.inj hx ▸ hl⟩
    · obtain ⟨run, rest, rfl, hrun, hrest⟩ := ih
      refine ⟨l :: run, rest, rfl, fun x hx => ?_, hrest⟩
      rcases List.mem_cons.mp hx with rfl | hx
      · exact (not_or.mp hl).symm
      · exact hrun x hx

theorem exists_firstRun (ls : List (List Char)) : ∃ run, FirstRun ls run := by
  induction ls with
  | nil => exact ⟨[], [], [], rfl, .nil, by simp, by simp⟩
  | cons l ls ih =>
    by_cases hl : l = []
    · obtain ⟨run, blanks, rest, rfl, hblanks, hrun, hrest⟩ := ih
      exact ⟨run, l :: blanks, rest, rfl, hl ▸ BlankLines.single.append hblanks, hrun, hrest⟩
    · obtain ⟨run, rest, hsplit, hrun, hrest⟩ := exists_run (l :: ls)
      refine ⟨run, [], rest, hsplit, .nil, hrun, fun x hx => (hrest x hx).imp_right fun e => ?_⟩
      -- with nothing in the run, `l` itself would be the blank line
      refine ⟨e, fun hnil => hl ?_⟩
      rw [hnil, List.nil_append] at hsplit
      rw [← hsplit, List.head?_cons] at hx
      exact (Option.some.inj hx).trans e

/-- behind the run there is nothing that belongs to the description -/
theorem takeWhile_rest {rest : List (List Char)}
    (hrest : ∀ l, rest.head? = some l → l.head? = some '@' ∨ l = [] ∧ run ≠ []) :
    (rest.takeWhile (!startsTag ·)).takeWhile (!·.isEmpty) = [] ∧
      (run = [] → rest.takeWhile (!startsTag ·) = []) := by
  cases rest with
  | nil => exact ⟨rfl, fun _ => rfl⟩
  | cons l rest =>
    rcases hrest l rfl with htag | ⟨rfl, hne⟩
    · have hstop : (l :: rest).takeWhile (!startsTag ·) = [] :=
        List.takeWhile_cons_of_neg (by simp [startsTag, htag])
      rw [hstop]
      exact ⟨rfl, fun _ => rfl⟩
    · exact ⟨rfl, fun h => absurd h hne⟩

theorem descriptionOf_of_firstRun (h : FirstRun ls run) : descriptionOf ls = joinLines run := by
  obtain ⟨blanks, rest, rfl, hblanks, hrun, hrest⟩ := h
  obtain ⟨hstop, hnone⟩ := takeWhile_rest hrest
  have hfront : ∀ l ∈ blanks ++ run, (!startsTag l) = true := by
    intro l hl
    rcases List.mem_append.mp hl with hl | hl
    · rw [hblanks l hl]
      rfl
    · rw [not_startsTag (hrun l hl).2]
      rfl
  have hempty : ∀ l ∈ blanks, l.isEmpty = true := fun l hl => by rw [hblanks l hl]; rfl
  have htext : ∀ l ∈ run, (!l.isEmpty) = true := fun l hl => by simp [(hrun l hl).1]
  rw [descriptionOf, List.takeWhile_append_of_pos hfront, List.append_assoc,
    List.dropWhile_append_of_pos hempty]
  cases run with
  | nil =>
    rw [hnone rfl]
    rfl
  | cons r run =>
    have hr : ¬ r.isEmpty = true := by simp [(hrun r List.mem_cons_self).1]
    rw [List.cons_append, List.dropWhile_cons_of_neg hr, ← List.cons_append,
      List.takeWhile_append_of_pos htext, hstop, List.append_nil]

/-- blank lines around the others do not change the run -/
theorem FirstRun.padded {ls' : List (List Char)} (h : FirstRun ls run) (hpad : Padded ls ls') :
    FirstRun ls' run := by
  obtain ⟨blanks, rest, rfl, hblanks, hrun, hrest⟩ := h
  obtain ⟨e, e', he, he', rfl⟩ := hpad
  by_cases hnil : run = [] ∧ rest = []
  · obtain ⟨rfl, rfl⟩ := hnil
    exact ⟨e ++ blanks ++ e', [], by simp, (he.append hblanks).append he', hrun, by simp⟩
  · refine ⟨e ++ blanks, rest ++ e', by simp, he.append hblanks, hrun, fun l hl => ?_⟩
    cases rest with
    | cons r rest => exact hrest l hl
    | nil =>
      have hl' : l ∈ e' := List.mem_of_mem_head? hl
      exact Or.inr ⟨he' l hl', fun h => hnil ⟨h, rfl⟩⟩

theorem descriptionOf_padded {ls' : List (List Char)} (hpad : Padded ls ls') :
    descriptionOf ls' = descriptionOf ls := by
  obtain ⟨run, hrun⟩ := exists_firstRun ls
  rw [descriptionOf_of_firstRun hrun, descriptionOf_of_firstRun (hrun.padded hpad)]

theorem gather_blank (ls : List (List Char)) : gather ([] :: ls) = gather ls := rfl

theorem gather_blank_append (he : BlankLines e) : gather (e ++ ls) = gather ls := by
  induction e with
  | nil => rfl
  | cons l e ih =>
    obtain rfl := he l List.mem_cons_self
    rw [List.cons_append, gather_blank, ih fun l hl => he l (List.mem_cons_of_mem _ hl)]

theorem gather_append_blank (he : BlankLines e) : gather (ls ++ e) = gather ls := by
  induction ls with
  | nil =>
    have h : gather (e ++ []) = gather [] := gather_blank_append he
    rwa [List.append_nil] at h
  | cons l ls ih => rw [List.cons_append, gather, gather, ih]

theorem tagTexts_padded {ls' : List (List Char)} (hpad : Padded ls ls') :
    tagTexts ls' = tagTexts ls := by
  obtain ⟨e, e', he, he', rfl⟩ := hpad
  rw [tagTexts, tagTexts, gather_append_blank he', gather_blank_append he]

theorem description_foldl_addTag (tags : List Tag) (d : DocComment) :
    (tags.foldl addTag d).description = d.description := by
  induction tags generalizing d with
  | nil => rfl
  | cons tag tags ih =>
    rw [List.foldl_cons, ih]
    cases tag <;> rfl

theorem description_ofText (comment : String) :
    (ofText comment).description = String.ofList (descriptionOf (lines comment)) :=
  description_foldl_addTag _ _

theorem ofText_of_padded {c c' : String} (hpad : Padded (lines c) (lines c')) :
    ofText c' = ofText c ∧ events c' = events c := by
  have htags : tags c' = tags c := by rw [tags, tags, tagTexts_padded hpad]
  rw [ofText, ofText, events, events, htags, descriptionOf_padded hpad]
  exact ⟨rfl, rfl⟩

def ragged : Frame where
  before := [' ', ' ']
  opening := ⟨['\t'], by decide, by decide⟩
  lineEnd := .crlf
  closing := ⟨[' '], by decide, by decide⟩
  after := ['\n', '\n']
  before_blank := by decide
  after_blank := by decide

/-- lines whose stars do not line up, with blanks of several kinds and both kinds of line end -/
def raggedLines : List (Decor × BareLine) :=
  let flush : Margin := ⟨[], by decide, by decide⟩
  let space : Margin := ⟨[' '], by decide, by decide⟩
  let wide : Margin := ⟨['\t', '\u3000'], by decide, by decide⟩
  [(⟨flush, space, flush, .lf⟩, ⟨[], by decide, by decide, by decide⟩),
    (⟨wide, flush, space, .crlf⟩, ⟨"Adds two".toList, by decide, by decide, by decide⟩),
    (⟨space, wide, wide, .lf⟩, ⟨"numbers.".toList, by decide, by decide, by decide⟩),
    (⟨flush, flush, flush, .crlf⟩, ⟨[], by decide, by decide, by decide⟩),
    (⟨flush, flush, flush, .lf⟩, ⟨"/ Slowly.".toList, by decide, by decide, by decide⟩),
    (⟨space, flush, flush, .lf⟩, ⟨"@return int the".toList, by decide, by decide, by decide⟩),
    (⟨flush, wide, space, .crlf⟩, ⟨"sum".toList, by decide, by decide, by decide⟩)]

end DocComment

open DocComment Text

/-- **Decoration changes nothing.**  The description of a comment with delimiters, stars, blanks
around the text of each line and line ends of either kind is the first run of lines with text in
front of all tags, joined by single spaces.  The whole comment is read like its bare lines, unless
these begin or end with a delimiter of their own. -/
theorem ofText_decorated (f : Frame) (ls : List (Decor × BareLine)) :
    (∃ run, FirstRun (ls.map (·.2.text)) run ∧
      (DocComment.ofText (decorated f ls)).description = String.ofList ([' '].intercalate run)) ∧
    (¬ ['/', '*', '*'] <+: trim (undecorated (ls.map Prod.snd)).toList →
      ¬ ['*', '/'] <:+ trim (undecorated (ls.map Prod.snd)).toList →
      DocComment.ofText (decorated f ls) = DocComment.ofText (undecorated (ls.map Prod.snd)) ∧
      DocComment.events (decorated f ls) = DocComment.events (undecorated (ls.map Prod.snd))) := by
  constructor
  · obtain ⟨run, hrun⟩ := exists_firstRun (ls.map (·.2.text))
    have hpad : Padded (ls.map (·.2.text)) (lines (decorated f ls)) :=
      ⟨[[]], [[]], .single, .single, lines_decorated f ls⟩
    refine ⟨run, hrun, ?_⟩
    rw [description_ofText, descriptionOf_of_firstRun (hrun.padded hpad)]
    rfl
  · intro hfront hback
    exact ofText_of_padded (padded_decorated f ls hfront hback)

/-- a line that begins with a slash right after its star is not the end of the comment -/
theorem ofText_decorated_of_ragged :
    ¬ ['/', '*', '*'] <+: trim (undecorated (raggedLines.map Prod.snd)).toList ∧
    ¬ ['*', '/'] <:+ trim (undecorated (raggedLines.map Prod.snd)).toList ∧
    DocComment.ofText (decorated ragged raggedLines) =
      DocComment.ofText "\nAdds two\nnumbers.\n\n/ Slowly.\n@return int the\nsum" ∧
    DocComment.ofText (decorated ragged raggedLines) =
      ⟨"Adds two numbers.", [], some ⟨"int", "the sum"⟩, none⟩ := by
  have hfront : ¬ ['/', '*', '*'] <+: trim (undecorated (raggedLines.map Prod.snd)).toList := by
    decide
  have hback : ¬ ['*', '/'] <:+ trim (undecorated (raggedLines.map Prod.snd)).toList := by
    decide
  obtain ⟨hsame, -⟩ := (ofText_decorated ragged raggedLines).2 hfront hback
  refine ⟨hfront, hback, hsame, hsame.trans ?_⟩
  decide

end TypeHint
