import QueryDoc.Proofs.Lexical.Spelling

/-! Scanning strings and blocks. Each is closed in one place only, so what is scanned
is what may stand between the quotes, and nothing else is. -/
namespace QueryDoc.Quoted

variable {cs inside rest : List Char}

/-! ## Strings on one line -/

theorem close_sound (h : close cs = some (inside, rest)) :
    cs = inside ++ '"' :: rest ∧ IsInside inside := by
  fun_induction close cs generalizing inside rest with
  | case1 tail =>
    simp only [Option.some.injEq, Prod.mk.injEq] at h
    obtain ⟨rfl, rfl⟩ := h
    exact ⟨rfl, .nil⟩
  | case2 c tail ih =>
    simp only [Option.map_eq_some_iff, Prod.mk.injEq, Prod.exists] at h
    obtain ⟨a, b, hab, rfl, rfl⟩ := h
    obtain ⟨rfl, ha⟩ := ih hab
    exact ⟨rfl, .escape c ha⟩
  | case3 => simp at h
  | case4 c tail hquote hescape hline ih =>
    simp only [Option.map_eq_some_iff, Prod.mk.injEq, Prod.exists] at h
    obtain ⟨a, b, hab, rfl, rfl⟩ := h
    rw [not_or] at hline
    obtain ⟨heq, ha⟩ := ih hab
    -- A backslash begins an escape, unless the text ends with it.
    have hbackslash : c ≠ '\\' := by
      intro hx
      subst hx
      cases tail with
      | nil => simp [close] at hab
      | cons d ds => exact hescape d ds rfl rfl
    exact ⟨congrArg (c :: ·) heq, .plain hquote hbackslash hline.1 hline.2 ha⟩
  | case5 => simp at h

theorem close_complete (h : IsInside inside) (rest : List Char) :
    close (inside ++ '"' :: rest) = some (inside, rest) := by
  induction h with
  | nil => rfl
  | escape c _ ih => simp [close, ih]
  | @plain c cs hquote hescape hn hr _ ih =>
    rw [List.cons_append, close]
    · simp [hn, hr, ih]
    · exact hquote
    · intro d ds hx
      subst hx
      exact absurd rfl hescape

/-! ## Blocks -/

/-- The flag of a scan only matters before three quotes. -/
theorem closeBlock_flag {b b' : Bool} (h : ∀ more, cs ≠ quotes more) :
    closeBlock b cs = closeBlock b' cs := by
  cases cs with
  | nil => rfl
  | cons c cs =>
    have hq : ∀ more, c = '"' → cs = '"' :: '"' :: more → False := by
      rintro more rfl rfl
      exact h more rfl
    rw [closeBlock, closeBlock] <;> exact hq

theorem quotes_append {more : List Char} (h : cs ++ quotes [] = quotes more) (rest : List Char) :
    cs ++ quotes rest = quotes (more ++ rest) := by
  have := congrArg (· ++ rest) h
  simpa using this

/-- Whether three quotes start before or within some is told by those three alone. -/
theorem not_quotes (h : ∀ more, cs ++ quotes [] ≠ quotes more) :
    ∀ more, cs ++ quotes rest ≠ quotes more := by
  intro more heq
  match cs with
  | [] => exact h [] rfl
  | [a] =>
    cases heq
    exact h ['"'] rfl
  | [a, b] =>
    cases heq
    exact h ['"', '"'] rfl
  | a :: b :: c :: cs =>
    cases heq
    exact h (cs ++ quotes []) rfl

/-- What was scanned after a backslash stands after it. -/
theorem closeBlock_sound {b : Bool} (h : closeBlock b cs = some (inside, rest)) :
    cs = inside ++ quotes rest ∧ IsBlockInside (if b then '\\' :: inside else inside) := by
  fun_induction closeBlock b cs generalizing inside rest with
  | case1 tail ih =>
    simp only [Option.map_eq_some_iff, Prod.mk.injEq, Prod.exists] at h
    obtain ⟨x, y, hxy, rfl, rfl⟩ := h
    obtain ⟨rfl, hx⟩ := ih hxy
    exact ⟨rfl, .quotes hx⟩
  | case2 b tail hb =>
    simp only [Option.some.injEq, Prod.mk.injEq] at h
    obtain ⟨rfl, rfl⟩ := h
    rw [if_neg hb]
    exact ⟨rfl, .nil⟩
  | case3 b c tail hq ih =>
    simp only [Option.map_eq_some_iff, Prod.mk.injEq, Prod.exists] at h
    obtain ⟨x, y, hxy, rfl, rfl⟩ := h
    obtain ⟨heq, hx⟩ := ih hxy
    have hopen : ∀ more, c :: x ++ quotes [] ≠ quotes more := by
      intro more hmore
      have := quotes_append hmore y
      rw [List.cons_append, ← heq] at this
      injection this with hc htail
      exact hq (more ++ y) hc htail
    have hcx : IsBlockInside (c :: x) := by
      by_cases hc : c = '\\'
      · rwa [if_pos (by simpa using hc), ← hc] at hx
      · rw [if_neg (by simpa using hc)] at hx
        refine .plain hopen (fun more hmore => ?_) hx
        injection hmore with hc' _
        exact hc hc'
    refine ⟨congrArg (c :: ·) heq, ?_⟩
    cases b with
    | false => exact hcx
    | true =>
      -- The backslash before the character is a plain one: no three quotes follow it.
      refine .plain (fun more hmore => ?_) (fun more hmore => ?_) hcx
      · injection hmore with hc' _
        exact absurd hc' (by decide)
      · injection hmore with _ hmore
        exact hopen more hmore
  | case4 => simp at h

theorem closeBlock_complete (h : IsBlockInside inside) (rest : List Char) :
    closeBlock false (inside ++ quotes rest) = some (inside, rest) := by
  induction h with
  | nil => rfl
  | @quotes cs _ ih =>
    show closeBlock false ('\\' :: quotes (cs ++ quotes rest)) = _
    rw [closeBlock]
    · simp [closeBlock, ih]
    · simp
  | @plain c cs hopen hescape _ ih =>
    have hopen' : ∀ more, c :: cs ++ quotes rest ≠ quotes more := not_quotes hopen
    -- A backslash before matters only where three quotes follow at once.
    have hrest : closeBlock (c = '\\') (cs ++ quotes rest) = some (cs, rest) := by
      by_cases hc : c = '\\'
      · have hclose : ∀ more, cs ++ quotes [] ≠ quotes more := by
          intro more heq
          exact hescape more (by rw [hc, heq])
        rw [closeBlock_flag (not_quotes hclose), ih]
      · simpa [hc] using ih
    rw [List.cons_append, closeBlock]
    · rw [hrest]
      rfl
    · intro more hx heq
      subst hx
      exact hopen' more (congrArg ('"' :: ·) heq)

end QueryDoc.Quoted
