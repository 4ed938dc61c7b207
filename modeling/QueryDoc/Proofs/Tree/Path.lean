import Mathlib.Data.List.Forall2
import QueryDoc.Proofs.Lexical.Digits
import QueryDoc.Proofs.Text.Lines
import QueryDoc.Tree.Path

/-! The written form of paths. A path is read back from its text. A path that is read from any
text has one segment for each part of that text between dots, and the text that it is printed
as has the same path: only the numbers in it may have been written in another way. -/
namespace QueryDoc

/-! ## Segments -/

namespace Segment

/-- A segment that can be written: a position fits into 64 bits. -/
def Fits : Segment → Prop
  | .index n => n ≤ maxIndex
  | .aliasName | .arguments | .defaultValue | .directives | .name | .selectionSet | .typeRef
  | .typeCondition | .value | .variable | .variableDefinitions => True

theorem toList_index (n : Nat) : (Segment.index n).toText.toList = Nat.toDigits 10 n :=
  Nat.toList_repr

/-- Digits are read as a position, if it is not too large. -/
theorem index?_digits {ds : List Char} (h : Numeral.Digits ds) (hle : digitsValue ds ≤ maxIndex) :
    index? ds = some (digitsValue ds) := by
  have hread : (natural? ds).filter (· ≤ maxIndex) = some (digitsValue ds) := by
    rw [natural?_digits h]
    exact Option.filter_some_pos (decide_eq_true hle)
  unfold index?
  split
  · exact absurd (h.2 '+' List.mem_cons_self) (by decide)
  · exact hread

/-- The text of a segment is read as that segment: a position goes first, and no other segment
is spelled with digits. -/
theorem parse_toText {s : Segment} (h : s.Fits) : parse s.toText.toList = .ok s := by
  cases s with
  | index n =>
    have hvalue : digitsValue (Nat.toDigits 10 n) = n := digitsValue_toDigits n
    have hindex : index? (Nat.toDigits 10 n) = some n := by
      rw [index?_digits (Numeral.digits_toDigits n) (hvalue.symm ▸ h), hvalue]
    rw [parse, toList_index, hindex]
  | _ => rfl

/-- Whatever is read as a segment can be written again. -/
theorem fits_of_parse {part : List Char} {s : Segment} (h : parse part = .ok s) : s.Fits := by
  rw [parse] at h
  split at h
  · next n hindex =>
    obtain rfl := Except.ok.inj h
    unfold index? at hindex
    have hle : n ≤ maxIndex := of_decide_eq_true (Option.filter_eq_some_iff.mp hindex).2
    exact hle
  · split at h
    · next slot hslot =>
      obtain rfl := Except.ok.inj h
      have hall : ∀ slot ∈ slots, slot.Fits := by simp [slots, Fits]
      exact hall slot (List.mem_of_find?_eq_some hslot)
    · cases h

theorem toText_ne_nil (s : Segment) : s.toText.toList ≠ [] := by
  cases s with
  | index n =>
    rw [toList_index]
    exact Nat.toDigits_ne_nil
  | _ => decide

/-- No segment is written with a dot. -/
theorem notMem_toText (s : Segment) : '.' ∉ s.toText.toList := by
  cases s with
  | index n =>
    rw [toList_index]
    intro h
    exact absurd ((Numeral.digits_toDigits n).2 '.' h) (by decide)
  | _ => decide

end Segment

/-! ## Texts with dots -/

namespace Path

theorem splitDots_eq (cs : List Char) : splitDots cs = cs.splitOn '.' := by
  induction cs with
  | nil => rfl
  | cons c cs ih =>
    rw [splitDots, ih, List.splitOn_cons_eq_if_modifyHead]
    cases hparts : cs.splitOn '.' with
    | nil => exact absurd hparts (List.splitOn_ne_nil _ _)
    | cons part parts => by_cases hc : c = '.' <;> simp [hc]

/-- The parts of a text between its dots; an empty text has none. -/
def parts (source : String) : List (List Char) :=
  if source = "" then [] else source.toList.splitOn '.'

/-- The parts of a printed path are its segments. -/
theorem parts_toText (p : Path) : parts p.toText = p.segments.map (·.toText.toList) := by
  obtain ⟨segments⟩ := p
  cases segments with
  | nil => rfl
  | cons s segments =>
    have hsplit : (chars ⟨s :: segments⟩).splitOn '.' =
        (s :: segments).map (·.toText.toList) := by
      refine List.splitOn_intercalate '.' (fun part hpart => ?_) (List.cons_ne_nil _ _)
      obtain ⟨s', -, rfl⟩ := List.mem_map.mp hpart
      exact s'.notMem_toText
    have hne : toText ⟨s :: segments⟩ ≠ "" := by
      intro h
      -- The parts of an empty text are one empty part, but no segment has an empty text.
      rw [← String.toList_eq_nil_iff, toText, String.toList_ofList] at h
      rw [h, List.splitOn_nil, List.map_cons] at hsplit
      exact s.toText_ne_nil (List.cons.inj hsplit).1.symm
    rw [parts, if_neg hne, toText, String.toList_ofList, hsplit]

/-! ## Reading paths -/

/-- The segments that the parts of a text are read as, one for each. -/
def ReadsAs (parts : List (List Char)) (segments : List Segment) : Prop :=
  List.Forall₂ (fun part s => Segment.parse part = .ok s) parts segments

theorem mapM_parse_iff {parts : List (List Char)} {segments : List Segment} :
    parts.mapM Segment.parse = .ok segments ↔ ReadsAs parts segments := by
  rw [ReadsAs]
  induction parts generalizing segments with
  | nil => cases segments <;> simp [pure, Except.pure]
  | cons part parts ih =>
    rw [List.mapM_cons]
    cases hpart : Segment.parse part with
    | error e => cases segments <;> simp [bind, Except.bind, hpart]
    | ok s =>
      cases hparts : parts.mapM Segment.parse with
      | error e => cases segments <;> simp [bind, Except.bind, hpart, ← ih, hparts]
      | ok ss =>
        cases segments <;> simp [bind, Except.bind, pure, Except.pure, hpart, ← ih, hparts]

/-- A path is read from a text where each part of the text is read as its segment. -/
theorem parse_iff {source : String} {p : Path} :
    parse source = .ok p ↔ ReadsAs (parts source) p.segments := by
  obtain ⟨segments⟩ := p
  rw [parse, parts, ← mapM_parse_iff]
  split
  · next hnil =>
    rw [if_pos (String.toList_eq_nil_iff.mp hnil)]
    cases segments <;> simp [empty, pure, Except.pure]
  · next hne =>
    rw [if_neg fun h => hne (String.toList_eq_nil_iff.mpr h), splitDots_eq]
    cases hparts : (source.toList.splitOn '.').mapM Segment.parse with
    | error e => simp [bind, Except.bind]
    | ok ss => simp [bind, Except.bind, pure, Except.pure]

theorem ReadsAs.fits {parts : List (List Char)} {segments : List Segment}
    (h : ReadsAs parts segments) : ∀ s ∈ segments, s.Fits := by
  induction h with
  | nil => exact List.forall_mem_nil _
  | cons hpart _ ih => exact List.forall_mem_cons.mpr ⟨Segment.fits_of_parse hpart, ih⟩

/-- A path whose positions fit is read back from its text. -/
theorem parse_of_fits {p : Path} (h : ∀ s ∈ p.segments, s.Fits) : parse p.toText = .ok p := by
  rw [parse_iff, parts_toText, ReadsAs, List.forall₂_map_left_iff, List.forall₂_same]
  exact fun s hs => Segment.parse_toText (h s hs)

/-- Paths and their texts. A path whose positions fit into 64 bits is read back from the text
that it is printed as. A path that is read from any text has one segment for each part of that
text, which this part is read as, and it is the path of its own text too. -/
theorem read_back :
    (∀ p : Path, (∀ s ∈ p.segments, s.Fits) → parse p.toText = .ok p) ∧
      ∀ (source : String) (p : Path), parse source = .ok p →
        p.length = (parts source).length ∧ ReadsAs (parts source) p.segments ∧
          parse p.toText = .ok p := by
  refine ⟨fun p => parse_of_fits, fun source p h => ?_⟩
  have hreads : ReadsAs (parts source) p.segments := parse_iff.mp h
  exact ⟨hreads.length_eq.symm, hreads, parse_of_fits hreads.fits⟩

/-- A path with the largest position that fits. -/
def lastSelections : Path := ⟨[.index Segment.maxIndex, .selectionSet]⟩

/-- It is read back; and a position with a plus sign and zeros is printed without them. -/
theorem read_back_padded :
    (∀ s ∈ lastSelections.segments, s.Fits) ∧
      parse "18446744073709551615.selectionSet" = .ok lastSelections ∧
      parse "+007.type" = .ok ⟨[.index 7, .typeRef]⟩ ∧
      (parts "+007.type").length = 2 ∧ parse "7.type" = parse "+007.type" := by
  have hfits : ∀ s ∈ lastSelections.segments, s.Fits :=
    List.forall_mem_cons.mpr ⟨Nat.le_refl Segment.maxIndex, List.forall_mem_singleton.mpr trivial⟩
  have htext : lastSelections.toText = "18446744073709551615.selectionSet" := by decide +kernel
  have hpadded : parse "+007.type" = .ok ⟨[.index 7, .typeRef]⟩ := rfl
  have hprinted : toText ⟨[.index 7, .typeRef]⟩ = "7.type" := by decide +kernel
  obtain ⟨hlength, -, hback⟩ := read_back.2 "+007.type" _ hpadded
  rw [hprinted] at hback
  refine ⟨hfits, ?_, hpadded, hlength.symm, hback.trans hpadded.symm⟩
  rw [← htext]
  exact read_back.1 lastSelections hfits

end Path
end QueryDoc
