import QueryDoc.Proofs.Grammar.Wellformed
import QueryDoc.Proofs.Print.Reparse

/-! Types that a caller wraps. A type that was read can be made the item of a list or be
required, as often as one likes: no exclamation mark ever follows another one, so what comes
out is printed and read back as it is, and the named type inside of it stays the same. -/
namespace QueryDoc

namespace TypeRef

/-- A way to wrap a type. -/
inductive Wrapping where
  | list
  | required
deriving DecidableEq, Repr

def wrap (t : TypeRef) : Wrapping → TypeRef
  | .list => t.listOf
  | .required => t.required

/-- A type with wrappings put around it one after the other. -/
def wrapAll (t : TypeRef) (ws : List Wrapping) : TypeRef := ws.foldl wrap t

/-- A type that was read from a source text, as all of it or as a part of what was read. -/
def WasRead (t : TypeRef) : Prop :=
  ∃ (e : Entry) (source : String) (n : Node), e.parse source = .ok n ∧ (IsNode.toNode t).Inside n

variable {t : TypeRef}

/-! ## One wrapping -/

theorem valid_required (h : t.Valid) : t.required.Valid := by
  cases t with
  | nonNull inner => exact h
  | named t => exact ⟨h, by rintro _ ⟨⟩⟩
  | list item => exact ⟨h, by rintro _ ⟨⟩⟩

theorem valid_wrap (h : t.Valid) (w : Wrapping) : (t.wrap w).Valid := by
  cases w with
  | list => exact h
  | required => exact valid_required h

theorem base_wrap (t : TypeRef) (w : Wrapping) : (t.wrap w).base = t.base := by
  cases w with
  | list => rfl
  | required => cases t <;> rfl

/-- Whatever is required stays the same when it is required once more. -/
theorem required_required (t : TypeRef) : t.required.required = t.required := by
  cases t <;> rfl

/-! ## All of them -/

theorem valid_wrapAll (h : t.Valid) (ws : List Wrapping) : (t.wrapAll ws).Valid := by
  rw [wrapAll]
  induction ws generalizing t with
  | nil => exact h
  | cons w ws ih => exact ih (valid_wrap h w)

theorem base_wrapAll (t : TypeRef) (ws : List Wrapping) : (t.wrapAll ws).base = t.base := by
  rw [wrapAll]
  induction ws generalizing t with
  | nil => rfl
  | cons w ws ih => exact (ih (t.wrap w)).trans (base_wrap t w)

theorem wrapAll_concat (t : TypeRef) (ws : List Wrapping) (w : Wrapping) :
    t.wrapAll (ws ++ [w]) = (t.wrapAll ws).wrap w :=
  List.foldl_concat ..

/-! ## Reading back -/

theorem WasRead.valid (h : t.WasRead) : t.Valid := by
  obtain ⟨e, source, n, hparse, hinside⟩ := h
  have hn : n.Throughout Node.Lawful := n.valid_iff_throughout.mp (Entry.valid_of_parse hparse)
  exact (Node.valid_ofTypeRef t).mp ((Node.valid_iff_throughout _).mpr (hn.inside hinside))

theorem parse_typeRef {source : String} :
    Production.typeRef.parse source = .ok t ↔ TypePhrase ((Lexer.lex source).map (·.token)) t :=
  Production.parse_iff_phrase Rule.sound_typeRef fun _ => Rule.complete_typeRef

/-- A valid type is read back from its print. -/
theorem parse_print_typeRef (h : t.Valid) :
    Production.typeRef.parse (Node.typeRef t).print = .ok t := by
  have hlex : (Lexer.lex (Node.typeRef t).print).map (·.token) = tokensOf t.pieces :=
    lex_printAt .default 0 (n := .typeRef t) h
  rw [parse_typeRef, hlex]
  exact derives_typeRef h

/-- A valid type excludes null at most once at each place. -/
theorem Valid.not_doubled (h : t.Valid) (inner : TypeRef) :
    ¬ (Node.typeRef (.nonNull (.nonNull inner))).Inside (.typeRef t) := by
  intro hinside
  have hlawful : Node.Lawful (.typeRef (.nonNull (.nonNull inner))) :=
    (Node.valid_iff_throughout (.typeRef t)).mp h _ hinside
  exact hlawful inner rfl

/-- A type that was read stays valid under any wrappings: no type that excludes null is directly
inside of another such type, the type is read back from its print, the named type inside of it is
the one that was read, and what was made required last is not changed by requiring it again. -/
theorem wrapAll_wellformed {t : TypeRef} (h : t.WasRead) (ws : List Wrapping) :
    (∀ inner, ¬ (Node.typeRef (.nonNull (.nonNull inner))).Inside (.typeRef (t.wrapAll ws))) ∧
      Production.typeRef.parse (Node.typeRef (t.wrapAll ws)).print = .ok (t.wrapAll ws) ∧
      (t.wrapAll ws).base = t.base ∧
      t.wrapAll (ws ++ [.required] ++ [.required]) = t.wrapAll (ws ++ [.required]) := by
  have hvalid : (t.wrapAll ws).Valid := valid_wrapAll h.valid ws
  refine ⟨hvalid.not_doubled, parse_print_typeRef hvalid, base_wrapAll t ws, ?_⟩
  calc t.wrapAll (ws ++ [Wrapping.required] ++ [Wrapping.required])
      = (t.wrapAll ws).required.required := by
        rw [wrapAll_concat, wrapAll_concat]
        rfl
    _ = (t.wrapAll ws).required := required_required _
    _ = t.wrapAll (ws ++ [Wrapping.required]) := (wrapAll_concat t ws .required).symm

/-- A list of values of one type. -/
def valuesType : TypeRef := .list (.named ⟨⟨"T"⟩⟩)

/-- As the type of a variable it is read as a part of a query; required, required again and made
the item of a list, it is read back from its print. -/
theorem wrapAll_wellformed_values :
    valuesType.WasRead ∧
      Production.typeRef.parse "[[T]!]" = .ok (.list (.nonNull valuesType)) ∧
      (valuesType.wrapAll [.required, .required, .list]).base = valuesType.base := by
  have hparse : Entry.variableDefinition.parse "$a: [T] = [1]" =
      .ok (.variableDefinition ⟨⟨⟨"a"⟩⟩, valuesType, some (.list [.int "1"]), []⟩) :=
    ok_of_toOption (by decide +kernel)
  have hread : valuesType.WasRead := ⟨_, _, _, hparse, .deeper (.tail _ (.head _)) (.self _)⟩
  obtain ⟨-, hback, hbase, -⟩ := wrapAll_wellformed hread [.required, .required, .list]
  have hprint : (Node.typeRef (valuesType.wrapAll [.required, .required, .list])).print =
      "[[T]!]" := by decide +kernel
  rw [hprint] at hback
  exact ⟨hread, hback, hbase⟩

end TypeRef
end QueryDoc
