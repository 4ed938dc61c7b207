import QueryDoc.Proofs.Lexical.Spelling

/-! Scanning numbers. Each part of a number is scanned as far as it goes, so what is
scanned is the longest number; a part that is followed by nothing it could go on with
is scanned exactly. -/
namespace QueryDoc.Numeral

variable {cs ds rest : List Char}

/-- What a text does not start with. -/
def Apart (p : Char → Bool) (cs : List Char) : Prop := ∀ c ∈ cs.head?, p c = false

theorem Apart.nil (p : Char → Bool) : Apart p [] := by
  intro c hc
  cases hc

theorem Apart.cons {p : Char → Bool} {c : Char} (h : p c = false) (cs : List Char) :
    Apart p (c :: cs) := by
  intro d hd
  cases hd
  exact h

theorem Apart.mono {p q : Char → Bool} (h : Apart p cs) (hi : ∀ c, q c = true → p c = true) :
    Apart q cs := by
  intro c hc
  have := h c hc
  cases hq : q c with
  | false => rfl
  | true => rw [hi c hq] at this; exact this

theorem IsNumber.head (h : IsNumber cs) :
    ∃ c more, cs = c :: more ∧ (isDigit c = true ∨ c = '-') := by
  obtain @⟨_, whole, frac, exp, hs, ⟨hne, hw⟩, -, -⟩ := h
  cases hs with
  | minus => exact ⟨'-', _, rfl, .inr rfl⟩
  | none =>
    cases whole with
    | nil => exact absurd rfl hne
    | cons d ds => exact ⟨d, _, rfl, .inl (hw d (by simp))⟩

/-! ## Runs of characters -/

theorem takeWhile_run {p : Char → Bool} (hds : ∀ c ∈ ds, p c = true) (h : Apart p rest) :
    (ds ++ rest).takeWhile p = ds := by
  rw [List.takeWhile_append_of_pos hds]
  cases rest with
  | nil => simp
  | cons c cs => simp [h c rfl]

theorem dropWhile_run {p : Char → Bool} (hds : ∀ c ∈ ds, p c = true) (h : Apart p rest) :
    (ds ++ rest).dropWhile p = rest := by
  rw [List.dropWhile_append_of_pos hds]
  cases rest with
  | nil => simp
  | cons c cs => simp [h c rfl]

theorem dropWhile_length_le {p : Char → Bool} (hds : ∀ c ∈ ds, p c = true)
    (rest : List Char) :
    ((ds ++ rest).dropWhile p).length ≤ rest.length := by
  rw [List.dropWhile_append_of_pos hds]
  exact (List.dropWhile_suffix p).length_le

theorem all_takeWhile (p : Char → Bool) (cs : List Char) : ∀ c ∈ cs.takeWhile p, p c = true :=
  List.all_eq_true.mp List.all_takeWhile

theorem digits_takeWhile (h : (cs.takeWhile isDigit).isEmpty = false) :
    Digits (cs.takeWhile isDigit) :=
  ⟨by simpa using h, all_takeWhile isDigit cs⟩

theorem digits_not_isEmpty (h : Digits ds) (rest : List Char) :
    ((ds ++ rest).takeWhile isDigit).isEmpty = false := by
  obtain ⟨hne, hds⟩ := h
  rw [List.takeWhile_append_of_pos hds]
  cases ds with
  | nil => exact absurd rfl hne
  | cons d ds => rfl

/-! ## What is scanned is a number -/

theorem minus_spec (cs : List Char) : cs = (minus cs).1 ++ (minus cs).2 ∧ IsMinus (minus cs).1 := by
  unfold minus
  split
  · exact ⟨rfl, .minus⟩
  · exact ⟨rfl, .none⟩

theorem fraction_spec (cs : List Char) :
    cs = (fraction cs).1 ++ (fraction cs).2 ∧ IsFraction (fraction cs).1 := by
  unfold fraction
  split
  · rename_i cs
    split
    · exact ⟨rfl, .none⟩
    · rename_i hne
      refine ⟨?_, .point (digits_takeWhile (by simpa using hne))⟩
      simp only [List.cons_append, List.takeWhile_append_dropWhile]
  · exact ⟨rfl, .none⟩

theorem exponentSign_spec (cs : List Char) :
    cs = (exponentSign cs).1 ++ (exponentSign cs).2 ∧ IsSign (exponentSign cs).1 := by
  unfold exponentSign
  split
  · exact ⟨rfl, .plus⟩
  · exact ⟨rfl, .minus⟩
  · exact ⟨rfl, .none⟩

theorem exponent_spec (cs : List Char) :
    cs = (exponent cs).1 ++ (exponent cs).2 ∧ IsExponent (exponent cs).1 := by
  unfold exponent
  split
  · rename_i c cs
    obtain ⟨heq, hsign⟩ := exponentSign_spec cs
    by_cases hc : c = 'e' ∨ c = 'E'
    · rw [if_pos hc]
      dsimp only
      split
      · exact ⟨rfl, .none⟩
      · rename_i hne
        refine ⟨?_, .mark hc hsign (digits_takeWhile (by simpa using hne))⟩
        simp only [List.cons_append, List.append_assoc, List.takeWhile_append_dropWhile]
        rw [← heq]
    · rw [if_neg hc]
      exact ⟨rfl, .none⟩
  · exact ⟨rfl, .none⟩

theorem scan_spec {text : List Char} (h : scan cs = some (text, rest)) :
    cs = text ++ rest ∧ IsNumber text := by
  simp only [scan, Option.ite_none_left_eq_some, Option.some.injEq, Prod.mk.injEq] at h
  obtain ⟨hne, rfl, rfl⟩ := h
  obtain ⟨hm, hsign⟩ := minus_spec cs
  obtain ⟨hf, hfrac⟩ := fraction_spec ((minus cs).2.dropWhile isDigit)
  obtain ⟨he, hexp⟩ := exponent_spec (fraction ((minus cs).2.dropWhile isDigit)).2
  constructor
  · simp only [List.append_assoc]
    rw [← he, ← hf, List.takeWhile_append_dropWhile, ← hm]
  · simp only [List.append_assoc]
    exact .number hsign (digits_takeWhile (by simpa using hne)) hfrac hexp

/-! ## A number is scanned to its end, or further -/

theorem minus_append {sign : List Char} (hs : IsMinus sign) (h : Apart (· == '-') rest) :
    minus (sign ++ rest) = (sign, rest) := by
  cases hs with
  | minus => rfl
  | none =>
    rw [List.nil_append]
    unfold minus
    split
    · exact absurd (h '-' rfl) (by decide)
    · rfl

theorem fraction_exact {frac : List Char} (hf : IsFraction frac)
    (hd : Apart isDigit rest) (hp : Apart (· == '.') rest) :
    fraction (frac ++ rest) = (frac, rest) := by
  cases hf with
  | none =>
    rw [List.nil_append]
    unfold fraction
    split
    · exact absurd (hp '.' rfl) (by decide)
    · rfl
  | @point ds hds =>
    rw [List.cons_append, fraction, digits_not_isEmpty hds, takeWhile_run hds.2 hd,
      dropWhile_run hds.2 hd]
    rfl

theorem fraction_longer {frac : List Char} (hf : IsFraction frac) (rest : List Char) :
    (fraction (frac ++ rest)).2.length ≤ rest.length := by
  cases hf with
  | none =>
    have := fraction_length rest
    rw [List.nil_append]
    omega
  | @point ds hds =>
    rw [List.cons_append, fraction, digits_not_isEmpty hds]
    exact dropWhile_length_le hds.2 rest

theorem exponentSign_append {sign : List Char} (hs : IsSign sign)
    (h : Apart (fun c => c == '+' || c == '-') rest) :
    exponentSign (sign ++ rest) = (sign, rest) := by
  cases hs with
  | plus => rfl
  | minus => rfl
  | none =>
    rw [List.nil_append]
    unfold exponentSign
    split
    · exact absurd (h '+' rfl) (by decide)
    · exact absurd (h '-' rfl) (by decide)
    · rfl

theorem Digits.apart {p : Char → Bool} (hds : Digits ds) (rest : List Char)
    (h : ∀ c, isDigit c = true → p c = false) : Apart p (ds ++ rest) := by
  obtain ⟨hne, hds⟩ := hds
  cases ds with
  | nil => exact absurd rfl hne
  | cons d ds => exact .cons (h d (hds d (by simp))) _

theorem isDigit_not_sign (c : Char) (h : isDigit c = true) : (c == '+' || c == '-') = false := by
  simp only [Bool.or_eq_false_iff, beq_eq_false_iff_ne]
  constructor <;> rintro rfl <;> exact absurd h (by decide)

/-- An exponent that is there is scanned with at least its digits. -/
theorem exponent_append {c : Char} {sign : List Char} (hc : c = 'e' ∨ c = 'E')
    (hs : IsSign sign) (hds : Digits ds) :
    exponent (c :: (sign ++ ds) ++ rest) =
      (c :: sign ++ (ds ++ rest).takeWhile isDigit, (ds ++ rest).dropWhile isDigit) := by
  rw [List.cons_append, List.append_assoc, exponent, if_pos hc,
    exponentSign_append hs (hds.apart rest isDigit_not_sign)]
  simp only [digits_not_isEmpty hds, Bool.false_eq_true, if_false]

theorem exponent_exact {exp : List Char} (he : IsExponent exp) (hd : Apart isDigit rest)
    (hm : Apart (fun c => c == 'e' || c == 'E') rest) : exponent (exp ++ rest) = (exp, rest) := by
  cases he with
  | mark hc hs hds =>
    rw [exponent_append hc hs hds, takeWhile_run hds.2 hd, dropWhile_run hds.2 hd]
    rfl
  | none =>
    rw [List.nil_append]
    cases rest with
    | nil => rfl
    | cons c cs =>
      have := hm c rfl
      rw [exponent, if_neg (by simpa using this)]

theorem exponent_longer {exp : List Char} (he : IsExponent exp) (rest : List Char) :
    (exponent (exp ++ rest)).2.length ≤ rest.length := by
  cases he with
  | mark hc hs hds =>
    rw [exponent_append hc hs hds]
    exact dropWhile_length_le hds.2 rest
  | none =>
    have := exponent_length rest
    rw [List.nil_append]
    omega

/-- What a number does not go on with, whatever its parts. -/
def goesOn (c : Char) : Bool := isDigit c || c == '.' || c == 'e' || c == 'E'

/-- Scanning a number that stands before some text, part by part. -/
theorem scan_parts {sign whole : List Char} (hs : IsMinus sign) (hw : Digits whole)
    (more : List Char) :
    scan (sign ++ (whole ++ more)) =
      some (sign ++ (whole ++ more).takeWhile isDigit ++
        (fraction ((whole ++ more).dropWhile isDigit)).1 ++
        (exponent (fraction ((whole ++ more).dropWhile isDigit)).2).1,
        (exponent (fraction ((whole ++ more).dropWhile isDigit)).2).2) := by
  have hminus : Apart (· == '-') (whole ++ more) := hw.apart more fun c hc => by
    have := isDigit_not_sign c hc
    simp only [Bool.or_eq_false_iff] at this
    exact this.2
  rw [scan, minus_append hs hminus]
  simp only [digits_not_isEmpty hw, Bool.false_eq_true, if_false]

theorem IsFraction.apart {p : Char → Bool} {frac : List Char} (hf : IsFraction frac)
    (hp : p '.' = false) (h : Apart p rest) : Apart p (frac ++ rest) := by
  cases hf with
  | none => exact h
  | point _ => exact .cons hp _

theorem apart_mark {p : Char → Bool} {c : Char} (hc : c = 'e' ∨ c = 'E') (he : p 'e' = false)
    (hE : p 'E' = false) (cs : List Char) : Apart p (c :: cs) := by
  rcases hc with rfl | rfl
  · exact .cons he _
  · exact .cons hE _

theorem IsExponent.apart {p : Char → Bool} {exp : List Char} (hx : IsExponent exp)
    (he : p 'e' = false) (hE : p 'E' = false) (h : Apart p rest) : Apart p (exp ++ rest) := by
  cases hx with
  | none => exact h
  | mark hc _ _ => exact apart_mark hc he hE _

/-- A number that is followed by nothing it could go on with is scanned as it is. -/
theorem scan_exact (hn : IsNumber cs) (h : Apart goesOn rest) :
    scan (cs ++ rest) = some (cs, rest) := by
  obtain @⟨sign, whole, frac, exp, hs, hw, hf, he⟩ := hn
  have hdigit : Apart isDigit rest := h.mono fun c hc => by simp [goesOn, hc]
  have hpoint : Apart (· == '.') rest := h.mono fun c hc => by simp [goesOn, hc]
  have hmark : Apart (fun c => c == 'e' || c == 'E') rest := h.mono fun c hc => by
    simp only [Bool.or_eq_true] at hc
    rcases hc with hc | hc <;> simp [goesOn, hc]
  have hexp : Apart isDigit (exp ++ rest) := he.apart rfl rfl hdigit
  have hfrac : Apart isDigit (frac ++ (exp ++ rest)) := hf.apart rfl hexp
  simp only [List.append_assoc]
  rw [scan_parts hs hw, takeWhile_run hw.2 hfrac, dropWhile_run hw.2 hfrac,
    fraction_exact hf hexp (he.apart rfl rfl hpoint), exponent_exact he hdigit hmark]
  simp only [List.append_assoc]

/-- Where a number stands, no shorter one is scanned. -/
theorem scan_longer (hn : IsNumber cs) (rest : List Char) :
    ∃ text more, scan (cs ++ rest) = some (text, more) ∧ more.length ≤ rest.length := by
  obtain @⟨sign, whole, frac, exp, hs, hw, hf, he⟩ := hn
  simp only [List.append_assoc]
  rw [scan_parts hs hw]
  refine ⟨_, _, rfl, ?_⟩
  have hexp := exponent_longer he rest
  -- The last part that is there can only get longer; the parts before it end where it starts.
  cases he with
  | @mark c sign ds hc hs' hds =>
    have hdigit : Apart isDigit (c :: (sign ++ ds) ++ rest) := apart_mark hc rfl rfl _
    have hpoint : Apart (· == '.') (c :: (sign ++ ds) ++ rest) := apart_mark hc rfl rfl _
    rw [dropWhile_run hw.2 (hf.apart rfl hdigit), fraction_exact hf hdigit hpoint]
    exact hexp
  | none =>
    rw [List.nil_append]
    cases hf with
    | @point ds hds =>
      have hpoint : Apart isDigit ('.' :: ds ++ rest) := .cons rfl _
      have hfrac := fraction_longer (.point hds) rest
      have := exponent_length (fraction ('.' :: ds ++ rest)).2
      rw [dropWhile_run hw.2 hpoint]
      omega
    | none =>
      have hdrop := dropWhile_length_le hw.2 rest
      have hfrac := fraction_length ((whole ++ rest).dropWhile isDigit)
      have := exponent_length (fraction ((whole ++ rest).dropWhile isDigit)).2
      rw [List.nil_append]
      omega

end QueryDoc.Numeral
