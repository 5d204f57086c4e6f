import Leta.Http.Routes
import Leta.Http.Routing

/-! # Which paths a route matches

The port promises that a path is matched exactly but for its parameters. A route's pattern
keeps that promise where neither of the library's two ways to read it gives a literal
segment another meaning. -/

namespace Leta

open Httplib

/-! ## Routes and their paths -/

def isSegmentByte (b : UInt8) : Bool := !(ascii "/\x7b\x7d").contains b

/-- A text between two slashes, without braces. -/
abbrev SegmentText := { text : Bytes // text.all isSegmentByte }

inductive PathSegment where
  | literal (text : SegmentText)
  | parameter (name : SegmentText)

namespace PathSegment

def text : PathSegment → Bytes
  | literal text => text.1
  | parameter name => 0x7b :: (name.1 ++ [0x7d])

/-- How the library is told of the segment. -/
def pattern : PathSegment → Bytes
  | literal text => text.1
  | parameter name => 0x3a :: name.1

def name? : PathSegment → Option Bytes
  | literal _ => none
  | parameter name => some name.1

/-- What the port lets the segment face. -/
def Fits : PathSegment → Bytes → Prop
  | literal text, faced => faced = text.1
  | parameter _, _ => True

end PathSegment

/-- The path of a route: segments between slashes, whose parameters have different names. A
path that starts with a slash has an empty literal before it. -/
structure RoutePath where
  segments : List PathSegment
  nonempty : segments ≠ []
  distinct : (segments.filterMap PathSegment.name?).Nodup

namespace RoutePath

def text (path : RoutePath) : Bytes := [0x2f].intercalate (path.segments.map PathSegment.text)

/-- The requested path has as many segments, and each fits. -/
def Fits (path : RoutePath) (requested : Bytes) : Prop :=
  List.Forall₂ PathSegment.Fits path.segments (requested.splitOn 0x2f)

end RoutePath

/-- What the port promises of a route that the library knows by this pattern. -/
structure MatchedExactly (matching : PathMatching) (path : RoutePath) (pattern : Bytes) :
    Prop where
  matched : ∀ requested, (∃ params, matching.Accepts pattern requested params) ↔ path.Fits requested
  read : ∀ requested params, matching.Accepts pattern requested params → ∀ name text,
    (.parameter name, text) ∈ path.segments.zip (requested.splitOn 0x2f) →
    ∀ (received : Httplib.Request) (request : HttpRequest), received.pathParams = params →
      request.pathParameters = pathParametersOf received → pathParameter request name.1 = text

/-- No literal segment means anything to the library. -/
structure RoutePath.IsPlain (path : RoutePath) : Prop where
  starts : ∃ first segments, path.segments = .literal first :: segments
  colonless : ∀ text, .literal text ∈ path.segments.tail → ¬ isCapture text.1
  operatorless : (∀ segment ∈ path.segments, segment.name? = none) →
    ∀ b ∈ path.text, isPatternCharacter b

/-! ## The pattern of a path -/

theorem not_mem_of_segmentText (text : SegmentText) :
    0x2f ∉ text.1 ∧ 0x7b ∉ text.1 ∧ 0x7d ∉ text.1 := by
  have h := List.all_eq_true.mp text.2
  refine ⟨fun hb => ?_, fun hb => ?_, fun hb => ?_⟩ <;> exact absurd (h _ hb) (by decide)

theorem toLibraryPattern_append (front back : Bytes) :
    toLibraryPattern (front ++ back) = toLibraryPattern front ++ toLibraryPattern back :=
  List.filterMap_append

theorem toLibraryPattern_segmentText (text : SegmentText) : toLibraryPattern text.1 = text.1 := by
  obtain ⟨-, hopen, hclose⟩ := not_mem_of_segmentText text
  rw [toLibraryPattern]
  conv_rhs => rw [← List.filterMap_some (l := text.1)]
  apply List.filterMap_congr
  intro b hb
  have hb1 : b ≠ 0x7b := fun h => hopen (h ▸ hb)
  have hb2 : b ≠ 0x7d := fun h => hclose (h ▸ hb)
  simp [hb1, hb2]

theorem toLibraryPattern_segment (segment : PathSegment) :
    toLibraryPattern segment.text = segment.pattern := by
  cases segment with
  | literal text => exact toLibraryPattern_segmentText text
  | parameter name =>
      rw [PathSegment.text, ← List.singleton_append, toLibraryPattern_append,
        toLibraryPattern_append, toLibraryPattern_segmentText]
      simp [toLibraryPattern, PathSegment.pattern]

theorem toLibraryPattern_intercalate (segments : List PathSegment) :
    toLibraryPattern ([0x2f].intercalate (segments.map PathSegment.text)) =
      [0x2f].intercalate (segments.map PathSegment.pattern) := by
  induction segments with
  | nil => rfl
  | cons segment segments ih =>
      cases segments with
      | nil => simpa using toLibraryPattern_segment segment
      | cons next segments =>
          simp only [List.map_cons, List.intercalate_cons_cons, toLibraryPattern_append] at ih ⊢
          rw [toLibraryPattern_segment, ih]
          rfl

theorem marker_infix_append {segment : Bytes} (hsegment : 0x2f ∉ segment) (rest : Bytes) :
    marker <:+: segment ++ 0x2f :: rest ↔ isCapture rest ∨ marker <:+: rest := by
  have hmarker : marker = [0x2f, 0x3a] := rfl
  induction segment with
  | nil =>
      rw [List.nil_append, List.infix_cons_iff, hmarker, List.cons_prefix_cons]
      cases rest with
      | nil => simp [isCapture]
      | cons b rest => simp [isCapture, List.cons_prefix_cons, @eq_comm _ b 0x3a]
  | cons b segment ih =>
      rw [List.mem_cons, not_or] at hsegment
      have hprefix : ¬ marker <+: b :: (segment ++ 0x2f :: rest) := by
        rw [hmarker, List.cons_prefix_cons]
        exact fun h => hsegment.1 h.1
      rw [List.cons_append, List.infix_cons_iff, or_iff_right hprefix]
      exact ih hsegment.2

theorem isCapture_intercalate {segment : Bytes} {segments : List Bytes} :
    isCapture ([0x2f].intercalate (segment :: segments)) = isCapture segment := by
  cases segments with
  | nil => rw [List.intercalate_singleton]
  | cons next segments =>
      rw [List.intercalate_cons_cons]
      cases segment with
      | nil => rfl
      | cons b segment => rfl

/-- The library looks for a capture behind every slash, but not before the first one. -/
theorem marker_infix_iff {segments : List Bytes}
    (hsegments : ∀ segment ∈ segments, 0x2f ∉ segment) :
    marker <:+: [0x2f].intercalate segments ↔ ∃ segment ∈ segments.tail, isCapture segment := by
  induction segments with
  | nil => simp [marker, ascii]
  | cons segment segments ih =>
      rw [List.forall_mem_cons] at hsegments
      cases segments with
      | nil =>
          rw [List.intercalate_singleton]
          refine ⟨fun h => ?_, fun h => by simp at h⟩
          exact absurd (h.subset (by simp [marker, ascii])) hsegments.1
      | cons next segments =>
          rw [List.intercalate_cons_cons, List.append_assoc, List.singleton_append,
            marker_infix_append hsegments.1, isCapture_intercalate, ih hsegments.2]
          simp

theorem PathSegment.slash_not_mem_pattern (segment : PathSegment) : 0x2f ∉ segment.pattern := by
  cases segment with
  | literal text => exact (not_mem_of_segmentText text).1
  | parameter name => simpa [PathSegment.pattern] using (not_mem_of_segmentText name).1

theorem splitOn_pattern (path : RoutePath) :
    ([0x2f].intercalate (path.segments.map PathSegment.pattern)).splitOn 0x2f =
      path.segments.map PathSegment.pattern := by
  apply List.splitOn_intercalate
  · rintro _ hpattern
    obtain ⟨segment, -, rfl⟩ := List.mem_map.mp hpattern
    exact segment.slash_not_mem_pattern
  · simpa using path.nonempty

/-! ## Reading parameters -/

/-- The order in which the library stores the parameters does not matter. -/
theorem pathParameter_eq {received : Httplib.Request} {request : HttpRequest} {name text : Bytes}
    (hrequest : request.pathParameters = pathParametersOf received)
    (hnodup : (received.pathParams.map Prod.fst).Nodup)
    (hmem : (name, text) ∈ received.pathParams) :
    pathParameter request name = text := by
  have hparameter : ⟨name, text⟩ ∈ request.pathParameters := by
    rw [hrequest]
    exact List.mem_map_of_mem hmem
  rw [pathParameter]
  cases hfind : request.pathParameters.find? fun parameter => parameter.name == name with
  | none =>
      have hnone := List.find?_eq_none.mp hfind _ hparameter
      simp at hnone
  | some found =>
      have hname : found.name = name := by simpa using List.find?_some hfind
      have hfound := List.mem_of_find?_eq_some hfind
      rw [hrequest] at hfound
      obtain ⟨param, hparam, rfl⟩ := List.mem_map.mp hfound
      obtain rfl := List.inj_on_of_nodup_map hnodup hparam hmem hname
      rfl

/-- Each parameter and the text it faces. -/
def faced (segments : List PathSegment) (texts : List Bytes) : List (Bytes × Bytes) :=
  (segments.zip texts).filterMap fun pair => pair.1.name?.map fun name => (name, pair.2)

theorem mem_faced {segments : List PathSegment} {texts : List Bytes} {name : SegmentText}
    {text : Bytes} (h : (.parameter name, text) ∈ segments.zip texts) :
    (name.1, text) ∈ faced segments texts :=
  List.mem_filterMap.mpr ⟨_, h, rfl⟩

theorem names_faced (segments : List PathSegment) (texts : List Bytes) :
    ((faced segments texts).map Prod.fst).Sublist (segments.filterMap PathSegment.name?) := by
  induction segments generalizing texts with
  | nil => simp [faced]
  | cons segment segments ih =>
      cases texts with
      | nil => simp [faced]
      | cons text texts =>
          cases segment with
          | literal first => exact ih texts
          | parameter name => exact (ih texts).cons_cons name.1

/-! ## Matching by segments -/

theorem isCapture_pattern {segments : List PathSegment} {segment : PathSegment}
    (hcolonless : ∀ text, .literal text ∈ segments → ¬ isCapture text.1) (h : segment ∈ segments) :
    isCapture segment.pattern = segment.name?.isSome := by
  cases segment with
  | literal text => simpa [PathSegment.pattern, PathSegment.name?] using hcolonless text h
  | parameter name => rfl

theorem matchesSegment_iff {segments : List PathSegment} {segment : PathSegment}
    (hcolonless : ∀ text, .literal text ∈ segments → ¬ isCapture text.1) (h : segment ∈ segments)
    (text : Bytes) : MatchesSegment segment.pattern text ↔ segment.Fits text := by
  rw [MatchesSegment, isCapture_pattern hcolonless h]
  cases segment with
  | literal first => simp [PathSegment.name?, PathSegment.pattern, PathSegment.Fits, eq_comm]
  | parameter name => simp [PathSegment.name?, PathSegment.Fits]

theorem forall₂_matchesSegment_iff {segments : List PathSegment}
    (hcolonless : ∀ text, .literal text ∈ segments → ¬ isCapture text.1) (texts : List Bytes) :
    List.Forall₂ MatchesSegment (segments.map PathSegment.pattern) texts ↔
      List.Forall₂ PathSegment.Fits segments texts := by
  induction segments generalizing texts with
  | nil => simp
  | cons segment segments ih =>
      have hsegment := matchesSegment_iff hcolonless List.mem_cons_self
      have htail := ih fun text h => hcolonless text (List.mem_cons_of_mem _ h)
      cases texts with
      | nil => simp
      | cons text texts => simp [hsegment, htail]

theorem captures_cons {segments : List PathSegment}
    (hcolonless : ∀ text, .literal text ∈ segments → ¬ isCapture text.1) (first first' : Bytes)
    (texts : List Bytes) :
    captures (first :: segments.map PathSegment.pattern) (first' :: texts) =
      faced segments texts := by
  induction segments generalizing texts with
  | nil => rfl
  | cons segment segments ih =>
      have hsegment := isCapture_pattern hcolonless List.mem_cons_self
      have htail := ih fun text h => hcolonless text (List.mem_cons_of_mem _ h)
      simp only [captures, List.tail_cons, faced] at htail ⊢
      cases texts with
      | nil => simp
      | cons text texts =>
          rw [List.map_cons, List.zip_cons_cons, List.zip_cons_cons, List.filterMap_cons,
            List.filterMap_cons, htail, hsegment]
          cases segment with
          | literal first => rfl
          | parameter name => rfl

/-- Behind the first segment the library finds the parameters of the path, each facing its text. -/
theorem captures_eq_faced {path : RoutePath} (hplain : path.IsPlain) (texts : List Bytes) :
    captures (path.segments.map PathSegment.pattern) texts = faced path.segments texts := by
  obtain ⟨first, segments, hsegments⟩ := hplain.starts
  have hcolonless := hplain.colonless
  rw [hsegments, List.tail_cons] at hcolonless
  rw [hsegments]
  cases texts with
  | nil => simp [captures, faced]
  | cons text texts => exact captures_cons hcolonless first.1 text texts

theorem matchesSegments_iff {path : RoutePath} (hplain : path.IsPlain) (texts : List Bytes) :
    MatchesSegments (path.segments.map PathSegment.pattern) texts ↔
      List.Forall₂ PathSegment.Fits path.segments texts := by
  obtain ⟨first, segments, hsegments⟩ := hplain.starts
  have hcolonless := hplain.colonless
  rw [hsegments, List.tail_cons] at hcolonless
  rw [hsegments]
  cases texts with
  | nil => simp [MatchesSegments]
  | cons text texts =>
      rw [List.map_cons, MatchesSegments, List.forall₂_cons, forall₂_matchesSegment_iff hcolonless]
      simp [PathSegment.pattern, PathSegment.Fits, eq_comm]

/-! ## Plain paths are matched exactly -/

variable {matching : PathMatching}

theorem forall₂_fits_literals {segments : List PathSegment}
    (hliteral : ∀ segment ∈ segments, segment.name? = none) (texts : List Bytes) :
    List.Forall₂ PathSegment.Fits segments texts ↔ texts = segments.map PathSegment.text := by
  induction segments generalizing texts with
  | nil => simp
  | cons segment segments ih =>
      rw [List.forall_mem_cons] at hliteral
      cases segment with
      | literal first =>
          cases texts with
          | nil => simp
          | cons text texts => simp [ih hliteral.2, PathSegment.Fits, PathSegment.text]
      | parameter name => simp [PathSegment.name?] at hliteral

theorem splitOn_of_segments (texts : List Bytes) (hnonempty : texts ≠ [])
    (htexts : ∀ text ∈ texts, 0x2f ∉ text) :
    (([0x2f] : Bytes).intercalate texts).splitOn 0x2f = texts :=
  List.splitOn_intercalate 0x2f htexts hnonempty

theorem pattern_eq_text {segments : List PathSegment}
    (hliteral : ∀ segment ∈ segments, segment.name? = none) :
    segments.map PathSegment.pattern = segments.map PathSegment.text := by
  apply List.map_congr_left
  intro segment hsegment
  have hname := hliteral segment hsegment
  cases segment with
  | literal text => rfl
  | parameter name => simp [PathSegment.name?] at hname

/-- A path without parameters fits itself alone. -/
theorem fits_iff_eq {path : RoutePath} (hliteral : ∀ segment ∈ path.segments, segment.name? = none)
    (requested : Bytes) : path.Fits requested ↔ requested = path.text := by
  rw [RoutePath.Fits, forall₂_fits_literals hliteral, RoutePath.text, ← pattern_eq_text hliteral]
  constructor
  · intro h
    rw [← h, List.intercalate_splitOn]
  · rintro rfl
    exact splitOn_pattern path

/-- The pattern that the library is given. -/
theorem toLibraryPattern_text (path : RoutePath) : toLibraryPattern path.text =
    [0x2f].intercalate (path.segments.map PathSegment.pattern) :=
  toLibraryPattern_intercalate path.segments

theorem splitOn_libraryPattern (path : RoutePath) :
    (toLibraryPattern path.text).splitOn 0x2f = path.segments.map PathSegment.pattern := by
  rw [toLibraryPattern_text, splitOn_pattern]

theorem marker_infix_libraryPattern_iff (path : RoutePath) :
    marker <:+: toLibraryPattern path.text ↔
      ∃ segment ∈ path.segments.tail, isCapture segment.pattern := by
  rw [toLibraryPattern_text, marker_infix_iff]
  · simp [← List.map_tail]
  · rintro _ hpattern
    obtain ⟨segment, -, rfl⟩ := List.mem_map.mp hpattern
    exact segment.slash_not_mem_pattern

/-- A path without parameters is a pattern as it stands. -/
theorem toLibraryPattern_of_literal {path : RoutePath}
    (hliteral : ∀ segment ∈ path.segments, segment.name? = none) :
    toLibraryPattern path.text = path.text := by
  rw [toLibraryPattern_text, pattern_eq_text hliteral, RoutePath.text]

/-- Every parameter behind a slash is a capture. -/
theorem literal_of_not_marker {path : RoutePath}
    (hstarts : ∃ first segments, path.segments = .literal first :: segments)
    (hmarker : ¬ marker <:+: toLibraryPattern path.text) :
    ∀ segment ∈ path.segments, segment.name? = none := by
  intro segment hsegment
  cases segment with
  | literal text => rfl
  | parameter name =>
      obtain ⟨first, segments, hsegments⟩ := hstarts
      rw [marker_infix_libraryPattern_iff, hsegments] at hmarker
      rw [hsegments] at hsegment
      obtain _ | ⟨_, htail⟩ := hsegment
      exact absurd ⟨_, htail, rfl⟩ hmarker

theorem matchedExactly_of_isPlain (laws : matching.Lawful) {path : RoutePath}
    (hplain : path.IsPlain) : MatchedExactly matching path (toLibraryPattern path.text) := by
  by_cases hmarker : marker <:+: toLibraryPattern path.text
  · constructor
    · intro requested
      rw [laws.segments_iff hmarker, splitOn_libraryPattern, matchesSegments_iff hplain]
      rfl
    · rintro requested params haccepts name text hfaced received request rfl hrequest
      have hcaptures : captures ((toLibraryPattern path.text).splitOn 0x2f)
          (requested.splitOn 0x2f) = faced path.segments (requested.splitOn 0x2f) := by
        rw [splitOn_libraryPattern, captures_eq_faced hplain]
      have hnodup := (names_faced path.segments (requested.splitOn 0x2f)).nodup path.distinct
      have hperm := laws.segments_params hmarker (hcaptures ▸ hnodup) haccepts
      rw [hcaptures] at hperm
      apply pathParameter_eq hrequest
      · exact (hperm.map Prod.fst).nodup_iff.mpr hnodup
      · exact hperm.mem_iff.mpr (mem_faced hfaced)
  · have hliteral := literal_of_not_marker hplain.starts hmarker
    have hplainText := hplain.operatorless hliteral
    have hpattern := toLibraryPattern_of_literal hliteral
    constructor
    · intro requested
      have hregex : IsRegex (toLibraryPattern path.text) := by
        rw [hpattern]
        exact isRegex_of_plain hplainText
      rw [laws.regex_iff hmarker hregex, hpattern, regexMatch_of_plain hplainText,
        fits_iff_eq hliteral]
    · intro requested params _ name text hfaced
      have hname := hliteral _ (List.of_mem_zip hfaced).1
      simp [PathSegment.name?] at hname

/-! ## Paths that are matched exactly are plain -/

theorem forall₂_fits_pattern (segments : List PathSegment) :
    List.Forall₂ PathSegment.Fits segments (segments.map PathSegment.pattern) := by
  rw [List.forall₂_map_right_iff, List.forall₂_same]
  intro segment _
  cases segment with
  | literal text => rfl
  | parameter name => trivial

/-- A parameter that starts the path is not preceded by a slash, and not read as one. -/
theorem starts_of_matchedExactly (laws : matching.Lawful) {path : RoutePath}
    (h : MatchedExactly matching path (toLibraryPattern path.text)) :
    ∃ first segments, path.segments = .literal first :: segments := by
  obtain ⟨segment, segments, hsegments⟩ := List.exists_cons_of_ne_nil path.nonempty
  cases segment with
  | literal first => exact ⟨first, segments, hsegments⟩
  | parameter name =>
      exfalso
      have hsplit := splitOn_of_segments ([0x61] :: segments.map PathSegment.pattern)
        (by simp) (by simpa using fun segment _ => segment.slash_not_mem_pattern)
      have hfits : path.Fits ([0x2f].intercalate ([0x61] :: segments.map PathSegment.pattern)) := by
        rw [RoutePath.Fits, hsplit, hsegments]
        exact .cons trivial (forall₂_fits_pattern segments)
      obtain ⟨params, haccepts⟩ := (h.matched _).mpr hfits
      by_cases hmarker : marker <:+: toLibraryPattern path.text
      · have hmatches := (laws.segments_iff hmarker).mp ⟨params, haccepts⟩
        rw [splitOn_libraryPattern, hsplit, hsegments] at hmatches
        exact absurd hmatches.1 (by simp [PathSegment.pattern])
      · have hparams := laws.regex_params hmarker haccepts
        have hread := h.read _ params haccepts name [0x61] (by rw [hsplit, hsegments]; simp)
          ⟨[], [], params, []⟩ ⟨.get, [], pathParametersOf ⟨[], [], params, []⟩, [], []⟩ rfl rfl
        rw [hparams] at hread
        simp [pathParameter, pathParametersOf] at hread

/-- A text that the library matches a segment with, and another one if it takes any. -/
def blanked (segment : PathSegment) : Bytes :=
  if isCapture segment.pattern then [] else segment.pattern

theorem slash_not_mem_blanked (segment : PathSegment) : 0x2f ∉ blanked segment := by
  rw [blanked]
  split_ifs
  · simp
  · exact segment.slash_not_mem_pattern

theorem forall₂_matchesSegment_blanked (segments : List PathSegment) :
    List.Forall₂ MatchesSegment (segments.map PathSegment.pattern) (segments.map blanked) := by
  rw [List.forall₂_map_left_iff, List.forall₂_map_right_iff, List.forall₂_same]
  intro segment _
  rw [MatchesSegment, blanked]
  split_ifs with hcapture
  · exact .inl hcapture
  · exact .inr rfl

/-- A literal behind a slash that starts with a colon is read as a parameter. -/
theorem colonless_of_matchedExactly (laws : matching.Lawful) {path : RoutePath}
    (h : MatchedExactly matching path (toLibraryPattern path.text)) :
    ∀ text, .literal text ∈ path.segments.tail → ¬ isCapture text.1 := by
  intro text htext hcapture
  have hmarker : marker <:+: toLibraryPattern path.text :=
    (marker_infix_libraryPattern_iff path).mpr ⟨_, htext, hcapture⟩
  obtain ⟨first, segments, hsegments⟩ := List.exists_cons_of_ne_nil path.nonempty
  rw [hsegments, List.tail_cons] at htext
  have hsplit := splitOn_of_segments (first.pattern :: segments.map blanked) (by simp)
    (by simpa using ⟨first.slash_not_mem_pattern, fun segment _ => slash_not_mem_blanked segment⟩)
  have haccepts : ∃ params, matching.Accepts (toLibraryPattern path.text)
      ([0x2f].intercalate (first.pattern :: segments.map blanked)) params := by
    rw [laws.segments_iff hmarker, splitOn_libraryPattern, hsplit, hsegments]
    exact ⟨rfl, forall₂_matchesSegment_blanked segments⟩
  have hfits := (h.matched _).mp haccepts
  rw [RoutePath.Fits, hsplit, hsegments, List.forall₂_cons, List.forall₂_map_right_iff,
    List.forall₂_same] at hfits
  have htext' : blanked (.literal text) = text.1 := hfits.2 _ htext
  have hblank : blanked (.literal text) = [] := if_pos hcapture
  rw [← htext', hblank] at hcapture
  exact absurd hcapture (by decide)

/-- What is needed to say that a path is not plain: without parameters and colons it is read
as a regular expression, which has to be one. -/
def RoutePath.IsUnderstood (path : RoutePath) : Prop :=
  (∃ segment ∈ path.segments, segment.name?.isSome) ∨ marker <:+: toLibraryPattern path.text ∨
    IsRegex path.text

theorem isPlain_of_matchedExactly (laws : matching.Lawful) {path : RoutePath}
    (hunderstood : path.IsUnderstood)
    (h : MatchedExactly matching path (toLibraryPattern path.text)) : path.IsPlain where
  starts := starts_of_matchedExactly laws h
  colonless := colonless_of_matchedExactly laws h
  operatorless hliteral := by
    have hpattern := toLibraryPattern_of_literal hliteral
    have hmarker : ¬ marker <:+: toLibraryPattern path.text := by
      rw [marker_infix_libraryPattern_iff]
      rintro ⟨segment, hsegment, hcapture⟩
      have hname := hliteral segment (List.mem_of_mem_tail hsegment)
      rw [isCapture_pattern (colonless_of_matchedExactly laws h) hsegment, hname] at hcapture
      exact absurd hcapture (by decide)
    have hregex : IsRegex path.text := by
      obtain ⟨segment, hsegment, hname⟩ | hcapture | hregex := hunderstood
      · rw [hliteral segment hsegment] at hname
        exact absurd hname (by decide)
      · exact absurd hcapture hmarker
      · exact hregex
    apply plain_of_regexMatch
    intro text
    rw [← fits_iff_eq hliteral, ← h.matched, laws.regex_iff hmarker (by rwa [hpattern]), hpattern]

/-! ## Registered routes -/

variable {ε σ : Type} {library : Library} {draw : ε → UInt64 × ε}

theorem given_adapt {method : HttpMethod} {handler : HttpHandler σ} {received : Httplib.Request}
    {engine : ε} {state : σ} {given : HttpRequest}
    (h : (adapt library draw method handler received engine state).given = some given) :
    given.pathParameters = pathParametersOf received := by
  rw [adapt] at h
  dsimp only at h
  split_ifs at h
  cases hhandler : handler ⟨method, received.path, pathParametersOf received, received.body,
      (resolveRequestId library draw received engine).1⟩ state with
  | mk answer state' =>
      rw [hhandler] at h
      cases answer with
      | ok answer => exact (Option.some.inj h) ▸ rfl
      | error exception => exact (Option.some.inj h) ▸ rfl

/-! ## The routes of main -/

def MainRoute.path : MainRoute → RoutePath
  | .health => ⟨[.literal ⟨[], rfl⟩, .literal ⟨ascii "health", rfl⟩], List.cons_ne_nil _ _,
      List.nodup_nil⟩
  | .createIndex => ⟨[.literal ⟨[], rfl⟩, .literal ⟨ascii "indexes", rfl⟩], List.cons_ne_nil _ _,
      List.nodup_nil⟩
  | .addDocuments => ⟨[.literal ⟨[], rfl⟩, .literal ⟨ascii "indexes", rfl⟩,
      .parameter ⟨uidParameter, rfl⟩, .literal ⟨ascii "documents", rfl⟩], List.cons_ne_nil _ _,
      List.nodup_singleton _⟩

theorem MainRoute.path_text (S : Ondemand) (now : Timestamp) (elapsed : ℕ) (faults : Faults)
    (route : MainRoute) : (route.route S now elapsed faults).path = route.path.text := by
  cases route <;> rfl

theorem MainRoute.isPlain (route : MainRoute) : route.path.IsPlain where
  starts := by cases route <;> exact ⟨_, _, rfl⟩
  colonless := by cases route <;> simp [path, isCapture, ascii]
  operatorless hliteral := by
    cases route with
    | health => exact List.all_eq_true.mp (by decide)
    | createIndex => exact List.all_eq_true.mp (by decide)
    | addDocuments =>
        have hname := hliteral (.parameter ⟨uidParameter, rfl⟩) (by simp [path])
        exact absurd hname (by decide)

/-! ## Every route -/

/-- A route of the port: what it matches and what its handler reads. -/
theorem addRoute_matches (laws : library.matching.Lawful) (draw : ε → UInt64 × ε) (route : Route σ)
    (path : RoutePath) (hpath : route.path = path.text) :
    (path.IsPlain → MatchedExactly library.matching path (addRoute library draw route).pattern) ∧
    (path.IsUnderstood →
      (MatchedExactly library.matching path (addRoute library draw route).pattern ↔ path.IsPlain)) ∧
    ∀ received engine state given,
      ((addRoute library draw route).handler received engine state).given = some given →
        given.pathParameters = pathParametersOf received := by
  have hpattern : (addRoute library draw route).pattern = toLibraryPattern path.text := by
    rw [addRoute, hpath]
  rw [hpattern]
  refine ⟨matchedExactly_of_isPlain laws, fun hunderstood => ?_, fun _ _ _ _ => given_adapt⟩
  exact ⟨isPlain_of_matchedExactly laws hunderstood, matchedExactly_of_isPlain laws⟩

theorem addRoute_matches_documents :
    MatchedExactly referenceMatching MainRoute.addDocuments.path
      (toLibraryPattern (ascii "/indexes/\x7buid\x7d/documents")) :=
  (addRoute_matches (referenceLibrary_lawful 100).matching
    (fun engine : UInt64 => (engine, engine))
    (⟨.post, ascii "/indexes/\x7buid\x7d/documents", fun _ state => (.ok ⟨okStatus, []⟩, state)⟩ :
      Route Unit) MainRoute.addDocuments.path rfl).1 (MainRoute.isPlain .addDocuments)

/-! ## Paths with operators -/

/-- `/a.b` -/
def dottedPath : RoutePath where
  segments := [.literal ⟨[], rfl⟩, .literal ⟨ascii "a.b", rfl⟩]
  nonempty := List.cons_ne_nil _ _
  distinct := List.nodup_nil

/-- `/:a` -/
def colonPath : RoutePath where
  segments := [.literal ⟨[], rfl⟩, .literal ⟨ascii ":a", rfl⟩]
  nonempty := List.cons_ne_nil _ _
  distinct := List.nodup_nil

theorem regexMatch_dotted : RegexMatch (ascii "/a.b") (ascii "/axb") := by
  refine ⟨.one (.cons (.once (.char 0x2f rfl)) <| .cons (.once (.char 0x61 rfl)) <|
    .cons (.once .any) <| .cons (.once (.char 0x62 rfl)) .empty), rfl, ?_⟩
  exact .one <| .cons (.once .char) <| .cons (.once .char) <| .cons (.once (.any rfl)) <|
    .cons (.once .char) .empty

theorem literal_dottedPath : ∀ segment ∈ dottedPath.segments, segment.name? = none := by decide

theorem literal_colonPath : ∀ segment ∈ colonPath.segments, segment.name? = none := by decide

theorem accepts_dottedPath :
    referenceMatching.Accepts (toLibraryPattern dottedPath.text) (ascii "/axb") [] := by
  have hmarker : ¬ marker <:+: toLibraryPattern dottedPath.text := by
    rw [marker_infix_libraryPattern_iff]
    decide
  dsimp only [referenceMatching]
  rw [if_neg hmarker]
  exact ⟨regexMatch_dotted, rfl⟩

theorem accepts_colonPath : referenceMatching.Accepts (toLibraryPattern colonPath.text)
    (ascii "/b") [(ascii "a", ascii "b")] := by
  have hmarker : marker <:+: toLibraryPattern colonPath.text := by
    rw [marker_infix_libraryPattern_iff]
    decide
  dsimp only [referenceMatching]
  rw [if_pos hmarker, splitOn_libraryPattern]
  refine ⟨⟨rfl, .cons (.inl rfl) .nil⟩, rfl⟩

/-- Both kinds of paths that are not plain match a path they should not. -/
theorem matched_loosely :
    (referenceMatching.Accepts (toLibraryPattern dottedPath.text) (ascii "/axb") [] ∧
      ¬ dottedPath.Fits (ascii "/axb") ∧
      ¬ MatchedExactly referenceMatching dottedPath (toLibraryPattern dottedPath.text)) ∧
    referenceMatching.Accepts (toLibraryPattern colonPath.text) (ascii "/b")
        [(ascii "a", ascii "b")] ∧
      ¬ colonPath.Fits (ascii "/b") ∧
      ¬ MatchedExactly referenceMatching colonPath (toLibraryPattern colonPath.text) := by
  have hdotted : ¬ dottedPath.Fits (ascii "/axb") := by
    rw [fits_iff_eq literal_dottedPath]
    decide
  have hcolon : ¬ colonPath.Fits (ascii "/b") := by
    rw [fits_iff_eq literal_colonPath]
    decide
  refine ⟨⟨accepts_dottedPath, hdotted, fun h => ?_⟩, accepts_colonPath, hcolon, fun h => ?_⟩
  · exact hdotted ((h.matched _).mp ⟨_, accepts_dottedPath⟩)
  · exact hcolon ((h.matched _).mp ⟨_, accepts_colonPath⟩)

end Leta
