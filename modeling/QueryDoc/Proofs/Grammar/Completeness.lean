import QueryDoc.Proofs.Grammar.Unfold

/-! What is in the language is read: where a construct of the grammar stands, its
rule reads just that and gives its tree. A rule takes the first alternative that fits
and as many parts as it can, so this needs two things to be told from the next terminal
alone: which alternative can start with it, and whether a part that is optional or
repeated can. The first is a fact about the grammar (`Starts`), the second a condition
on what follows the construct (`Ahead`). -/
namespace QueryDoc.Rule
open Phrase

variable {α : Type} {n : Nat} {ts rest : List Token}

/-- What the next terminal is, if there is one. -/
def Ahead (ok : Token → Bool) (rest : List Token) : Prop := ∀ t ∈ rest.head?, ok t = true

/-- What every construct of a phrase starts with. -/
def Starts (p : Phrase α) (first : Token → Bool) : Prop :=
  ∀ ⦃ts a⦄, p ts a → ∃ t us, ts = t :: us ∧ first t = true

/-- Where a construct of fewer than some number of terminals stands and what is ahead
does not continue it, a rule reads just that construct. -/
def CompleteBelow (n : Nat) (r : Rule α) (p : Phrase α) (follow : Token → Bool) : Prop :=
  ∀ ⦃ts a rest⦄, ts.length < n → p ts a → Ahead follow rest → Reads r (ts ++ rest) a rest

theorem Ahead.nil (ok : Token → Bool) : Ahead ok [] := by
  intro t ht
  cases ht

theorem Ahead.any (rest : List Token) : Ahead (fun _ => true) rest := fun _ _ => rfl

theorem Ahead.cons {ok : Token → Bool} (t : Token) (rest : List Token) (h : ok t = true) :
    Ahead ok (t :: rest) := by
  intro u hu
  cases hu
  exact h

theorem Ahead.mono {ok ok' : Token → Bool} (h : Ahead ok rest)
    (hi : ∀ t, ok t = true → ok' t = true) : Ahead ok' rest :=
  fun t ht => hi t (h t ht)

theorem Ahead.left {ok ok' : Token → Bool} (h : Ahead (fun t => ok t && ok' t) rest) :
    Ahead ok rest :=
  h.mono fun _ ht => (Bool.and_eq_true_iff.mp ht).1

theorem Ahead.right {ok ok' : Token → Bool} (h : Ahead (fun t => ok t && ok' t) rest) :
    Ahead ok' rest :=
  h.mono fun _ ht => (Bool.and_eq_true_iff.mp ht).2

theorem Starts.ahead {p : Phrase α} {first ok : Token → Bool} {a : α} (hp : Starts p first)
    (h : p ts a) (hi : ∀ t, first t = true → ok t = true) : Ahead ok (ts ++ rest) := by
  obtain ⟨t, us, rfl, ht⟩ := hp h
  exact .cons t _ (hi t ht)

theorem Starts.ahead_many {p : Phrase α} {first ok : Token → Bool} {as : List α}
    (hp : Starts p first) (h : Many p ts as) (hi : ∀ t, first t = true → ok t = true)
    (hrest : Ahead ok rest) : Ahead ok (ts ++ rest) := by
  cases h with
  | nil => exact hrest
  | cons ha _ =>
    rw [List.append_assoc]
    exact hp.ahead ha hi

theorem Starts.ahead_opt {p : Phrase α} {first ok : Token → Bool} {o : Option α}
    (hp : Starts p first) (h : Opt p ts o) (hi : ∀ t, first t = true → ok t = true)
    (hrest : Ahead ok rest) : Ahead ok (ts ++ rest) := by
  cases h with
  | none => exact hrest
  | some ha => exact hp.ahead ha hi

theorem ahead_group {p : Phrase α} {ok : Token → Bool} {as : List α} (h : Group p ts as)
    (hi : ok .parenL = true) (hrest : Ahead ok rest) : Ahead ok (ts ++ rest) := by
  cases h with
  | none => exact hrest
  | some _ _ => exact .cons _ _ hi

/-- A sound rule misses where no construct starts. -/
theorem Sound.misses {r : Rule α} {p : Phrase α} (hs : Sound r p) {first : Token → Bool}
    (hp : Starts p first) (hi : Ahead (fun t => !first t) rest) : Misses r rest := by
  refine misses_of_not_reads fun a rest h => ?_
  obtain ⟨ts, rfl, hts⟩ := hs h
  obtain ⟨t, us, rfl, ht⟩ := hp hts
  have := hi t rfl
  simp [ht] at this

theorem misses_token {t : Token} {kind : Kind} (h : Ahead (fun u => u != t) rest) :
    Misses (token t kind) rest := by
  refine misses_of_not_reads fun u rest hr => ?_
  obtain rfl := reads_token.mp hr
  have := h t rfl
  simp at this

/-- A rule that is its own body reads what its phrase derives, if the body does one terminal
further than the rule. -/
theorem CompleteBelow.recursive {r : Rule α} {p : Phrase α} {follow : Token → Bool}
    {body : Rule α → Rule α} (hr : r = body r)
    (hb : ∀ {n}, CompleteBelow n r p follow → CompleteBelow (n + 1) (body r) p follow) :
    CompleteBelow n r p follow := by
  induction n with
  | zero =>
    intro ts a rest hn
    exact absurd hn (Nat.not_lt_zero _)
  | succ n ih =>
    rw [hr]
    exact hb ih

/-! ## Repeated and optional parts -/

/-- A repetition reads all parts and stops where no further part starts. -/
theorem CompleteBelow.many {r : Rule α} {p : Phrase α} {first follow : Token → Bool}
    (hs : Sound r p) (hp : Starts p first) (hf : ∀ t, first t = true → follow t = true)
    (hr : CompleteBelow n r p follow) :
    CompleteBelow n (many r) (Many p) (fun t => follow t && !first t) := by
  intro ts as rest hn h hrest
  have hfollow : Ahead follow rest := hrest.left
  induction h with
  | nil =>
    exact many_none (hs.misses hp hrest.right)
  | @cons ts us a as ha has ih =>
    -- The next part or the end of the repetition follows a part.
    rw [List.length_append] at hn
    have hnext : Ahead follow (us ++ rest) := hp.ahead_many has hf hfollow
    have hread := hr (by omega) ha hnext
    -- The part has a first terminal, so the repetition may go on.
    obtain ⟨t, ts', rfl, -⟩ := hp ha
    rw [List.append_assoc]
    refine many_some hread ?_ (ih (by omega))
    simp only [List.cons_append, List.length_cons, List.length_append]
    omega

theorem CompleteBelow.many1 {r : Rule α} {p : Phrase α} {first follow : Token → Bool}
    (hs : Sound r p) (hp : Starts p first) (hf : ∀ t, first t = true → follow t = true)
    (hr : CompleteBelow n r p follow) :
    CompleteBelow n (many1 r) (fun ts as => Many p ts as ∧ as ≠ [])
      (fun t => follow t && !first t) := by
  intro ts as rest hn hx hrest
  obtain ⟨h, hne⟩ := hx
  have hfollow : Ahead follow rest := hrest.left
  cases h with
  | nil => exact absurd rfl hne
  | @cons ts us a as ha has =>
    rw [List.length_append] at hn
    rw [List.append_assoc]
    exact reads_many1.mpr ⟨a, us ++ rest, as, hr (by omega) ha (hp.ahead_many has hf hfollow),
      hr.many hs hp hf (by omega) has hrest, rfl⟩

theorem CompleteBelow.optional {r : Rule α} {p : Phrase α} {first follow : Token → Bool}
    (hs : Sound r p) (hp : Starts p first) (hr : CompleteBelow n r p follow) :
    CompleteBelow n (optional r) (Opt p) (fun t => follow t && !first t) := by
  intro ts o rest hn h hrest
  cases h with
  | none =>
    exact reads_optional.mpr (.inr ⟨hs.misses hp hrest.right, rfl, rfl⟩)
  | some ha =>
    exact reads_optional.mpr (.inl ⟨_, rfl, hr hn ha hrest.left⟩)

theorem CompleteBelow.group {r : Rule α} {p : Phrase α} {first follow : Token → Bool}
    {kind : Kind} (hs : Sound r p) (hp : Starts p first)
    (hf : ∀ t, first t = true → follow t = true)
    (hend : (follow .parenR && !first .parenR) = true) (hr : CompleteBelow n r p follow) :
    CompleteBelow n (Rule.group kind r) (Group p) (fun t => t != .parenL) := by
  intro ts as rest hn h hrest
  cases h with
  | none =>
    exact Reads.bind (reads_optional.mpr (.inr ⟨(misses_token hrest).bind, rfl, rfl⟩)) reads_self
  | @some us as hm hne =>
    simp only [List.length_append, List.length_cons] at hn
    simp only [List.cons_append, List.append_assoc, List.nil_append]
    -- The closing parenthesis is not the start of a part.
    have hparts := hr.many1 hs hp hf (by omega) ⟨hm, hne⟩ (.cons .parenR rest hend)
    refine Reads.bind (reads_optional.mpr (.inl ⟨as, rfl, ?_⟩)) reads_self
    exact reads_token_cons.bind (hparts.bind (reads_token_cons.bind reads_self))

/-! ## Names and values -/

def isName (t : Token) : Bool := t matches .name _

theorem all_names {ok : Token → Bool} (h : ∀ text, ok (.name text) = true) :
    ∀ t, isName t = true → ok t = true := by
  intro t ht
  cases t <;> first | exact h _ | cases ht

theorem all_eq {ok : Token → Bool} {u : Token} (h : ok u = true) :
    ∀ t, (t == u) = true → ok t = true := by
  intro t ht
  rwa [eq_of_beq ht]

theorem starts_name : Starts NamePhrase isName := by
  intro ts a h
  obtain ⟨text⟩ := h
  exact ⟨_, _, rfl, rfl⟩

/-- What a value starts with. -/
def opensValue : Token → Bool
  | .name _ | .number _ | .string _ _ | .dollar | .bracketL | .braceL => true
  | _ => false

theorem starts_value : Starts ValuePhrase opensValue := by
  rintro ts v (_ | _ | _ | ⟨⟨text⟩⟩ | _ | _ | _ | _ | _ | _) <;> exact ⟨_, _, rfl, rfl⟩

theorem starts_objectField : Starts ObjectFieldPhrase isName := by
  intro ts f h
  obtain ⟨text, -⟩ := h
  exact ⟨_, _, rfl, rfl⟩

@[simp] theorem reads_name_cons (text : String) : Reads name (.name text :: rest) ⟨text⟩ rest :=
  reads_terminal.mpr ⟨_, rfl, rfl⟩

theorem complete_name : CompleteBelow n name NamePhrase (fun _ => true) := by
  intro ts a rest _ h _
  obtain ⟨text⟩ := h
  exact reads_name_cons text

theorem complete_variableRef :
    CompleteBelow n variableRef VariablePhrase (fun _ => true) := by
  intro ts a rest _ h _
  obtain ⟨text⟩ := h
  refine reads_token_cons.bind ?_
  exact (reads_name_cons text).bind reads_self

theorem complete_listOf (h : CompleteBelow n value ValuePhrase (fun _ => true))
    {vs : List Value} (hn : ts.length < n) (hvs : Many ValuePhrase ts vs) :
    Reads (listOf value) (.bracketL :: ts ++ [.bracketR] ++ rest) (.list vs) rest := by
  simp only [List.cons_append, List.append_assoc, List.nil_append]
  refine reads_token_cons.bind ?_
  have hvalues := h.many sound_value starts_value (fun _ _ => rfl) hn hvs
    (.cons .bracketR rest rfl)
  exact hvalues.bind (reads_token_cons.bind reads_self)

theorem complete_objectField_of (h : CompleteBelow n value ValuePhrase (fun _ => true)) :
    CompleteBelow n objectField ObjectFieldPhrase (fun _ => true) := by
  intro ts f rest hn hx _
  obtain ⟨text, hv⟩ := hx
  simp only [List.length_cons] at hn
  refine (reads_name_cons text).bind ?_
  refine reads_token_cons.bind ?_
  exact (h (by omega) hv (fun _ _ => rfl)).bind reads_self

theorem complete_objectOf (h : CompleteBelow n value ValuePhrase (fun _ => true))
    {fs : List ObjectField} (hn : ts.length < n) (hfs : Many ObjectFieldPhrase ts fs) :
    Reads (objectOf value) (.braceL :: ts ++ [.braceR] ++ rest) (.object fs) rest := by
  simp only [List.cons_append, List.append_assoc, List.nil_append]
  refine reads_token_cons.bind ?_
  have hfields := (complete_objectField_of h).many sound_objectField starts_objectField
    (fun _ _ => rfl) hn hfs (.cons .braceR rest rfl)
  exact hfields.bind (reads_token_cons.bind reads_self)

section Alternatives
variable {t : Token}

theorem misses_null (h : t ≠ .name "null") : Misses null (t :: rest) :=
  (misses_keyword_cons.mpr h).bind

theorem misses_boolean (ht : t ≠ .name "true") (hf : t ≠ .name "false") :
    Misses boolean (t :: rest) :=
  misses_orElse.mpr ⟨(misses_keyword_cons.mpr ht).bind, (misses_keyword_cons.mpr hf).bind⟩

theorem misses_variable (h : t ≠ .dollar) :
    Misses (attempt do return Value.variable (← variableRef)) (t :: rest) :=
  misses_attempt.mpr (misses_token_cons.mpr h).bind.bind

/-- The alternatives before a string, which start with a name or a dollar sign. -/
theorem reads_valueOf_string {item : Rule Value} {v : Value} (hd : t ≠ .dollar)
    (hn : ∀ word ∈ Name.reserved, t ≠ .name word)
    (h : Reads (orElse string <| orElse number <| orElse enum <| orElse (attempt (listOf item)) <|
      expecting .value (attempt (objectOf item))) (t :: ts) v rest) :
    Reads (valueOf item) (t :: ts) v rest :=
  .past (misses_null (hn _ (by simp [Name.reserved]))) <|
  .past (misses_boolean (hn _ (by simp [Name.reserved])) (hn _ (by simp [Name.reserved]))) <|
  .past (misses_variable hd) h

end Alternatives

theorem complete_valueOf (h : CompleteBelow n value ValuePhrase (fun _ => true)) :
    CompleteBelow (n + 1) (valueOf value) ValuePhrase (fun _ => true) := by
  intro ts v rest hn hv _
  -- Each form of a value is read by its own alternative; the ones before miss its start.
  rcases hv with _ | _ | _ | ⟨⟨text⟩⟩ | ⟨content, block⟩ | @⟨text, hf⟩ | @⟨text, hf⟩ |
    @⟨text, hr⟩ | @⟨us, vs, hvs⟩ | @⟨us, fs, hfs⟩
  · exact .here (by simp [null])
  · exact .past (misses_null (by simp)) (.here (by simp [boolean]))
  · exact .past (misses_null (by simp)) (.here (by simp [boolean, Misses.bind]))
  · refine .past (misses_null (by simp)) (.past (misses_boolean (by simp) (by simp)) (.here ?_))
    have hv := complete_variableRef hn ⟨text⟩ (.any rest)
    exact reads_attempt.mpr (hv.bind reads_self)
  · exact reads_valueOf_string (by simp) (by simp) (.here (reads_terminal.mpr ⟨_, rfl, rfl⟩))
  · refine reads_valueOf_string (by simp) (by simp) (.past (misses_terminal_cons.mpr rfl) ?_)
    exact .here (reads_terminal.mpr ⟨_, rfl, by simp [hf]⟩)
  · refine reads_valueOf_string (by simp) (by simp) (.past (misses_terminal_cons.mpr rfl) ?_)
    exact .here (reads_terminal.mpr ⟨_, rfl, by simp [hf]⟩)
  · refine reads_valueOf_string (by simp) ?_ (.past (misses_terminal_cons.mpr rfl) ?_)
    · intro word hw heq
      cases heq
      exact hr hw
    · refine .past (misses_terminal_cons.mpr rfl) (.here ?_)
      exact reads_terminal.mpr ⟨_, rfl, by simp [hr]⟩
  · refine reads_valueOf_string (by simp) (by simp) (.past (misses_terminal_cons.mpr rfl) ?_)
    refine .past (misses_terminal_cons.mpr rfl) (.past (misses_terminal_cons.mpr rfl) (.here ?_))
    simp only [List.length_append, List.length_cons] at hn
    exact reads_attempt.mpr (complete_listOf h (by omega) hvs)
  · refine reads_valueOf_string (by simp) (by simp) (.past (misses_terminal_cons.mpr rfl) ?_)
    refine .past (misses_terminal_cons.mpr rfl) (.past (misses_terminal_cons.mpr rfl) ?_)
    refine .past (misses_attempt.mpr (misses_token_cons.mpr (by simp)).bind) ?_
    simp only [List.length_append, List.length_cons] at hn
    exact reads_expecting.mpr (reads_attempt.mpr (complete_objectOf h (by omega) hfs))

theorem complete_value : CompleteBelow n value ValuePhrase (fun _ => true) :=
  .recursive value_eq complete_valueOf

theorem complete_objectField :
    CompleteBelow n objectField ObjectFieldPhrase (fun _ => true) :=
  complete_objectField_of complete_value

/-! ## Types -/

theorem complete_namedType :
    CompleteBelow n namedType NamedTypePhrase (fun _ => true) := by
  intro ts t rest _ h _
  obtain ⟨text⟩ := h
  exact (reads_name_cons text).bind reads_self

/-- A type before its exclamation mark, if it has one. -/
theorem reads_core {core t : TypeRef} {mid : List Token}
    (h : CompleteBelow n typeRef TypePhrase (· != .bang)) (hn : ts.length < n + 1)
    (hc : NullableTypePhrase ts core)
    (hm : Reads (do if ← takes .bang .nonNullType then return .nonNull core else return core)
      mid t rest) : Reads (typeRefOf typeRef) (ts ++ mid) t rest := by
  rcases hc with @⟨_, t, ⟨text⟩⟩ | @⟨us, inner, hi⟩
  · refine reads_bind.mpr ⟨false, .name text :: mid, ?_, ?_⟩
    · exact reads_takes.mpr (.inr ⟨rfl, rfl, misses_token (.cons _ _ rfl)⟩)
    · dsimp only
      rw [if_neg Bool.false_ne_true]
      have hname := complete_namedType hn ⟨text⟩ (.any mid)
      exact hname.bind (reads_self.bind hm)
  · simp only [List.length_append, List.length_cons] at hn
    simp only [List.cons_append, List.append_assoc, List.nil_append]
    refine reads_bind.mpr ⟨true, us ++ .bracketR :: mid, ?_, ?_⟩
    · exact reads_takes.mpr (.inl ⟨rfl, rfl⟩)
    · dsimp only
      rw [if_pos rfl]
      have hitem := h (by omega) hi (.cons .bracketR mid rfl)
      exact hitem.bind (reads_token_cons.bind (reads_self.bind hm))

theorem complete_typeRefOf (h : CompleteBelow n typeRef TypePhrase (· != .bang)) :
    CompleteBelow (n + 1) (typeRefOf typeRef) TypePhrase (· != .bang) := by
  intro ts t rest hn ht hrest
  rcases ht with hc | @⟨us, t, hc⟩
  · have hmark : Reads (takes .bang .nonNullType) rest false rest :=
      reads_takes.mpr (.inr ⟨rfl, rfl, misses_token hrest⟩)
    exact reads_core h hn hc (hmark.bind reads_self)
  · simp only [List.length_append, List.length_cons] at hn
    simp only [List.append_assoc, List.cons_append, List.nil_append]
    have hmark : Reads (takes .bang .nonNullType) (.bang :: rest) true rest :=
      reads_takes.mpr (.inl ⟨rfl, rfl⟩)
    exact reads_core h (by omega) hc (hmark.bind reads_self)

theorem complete_typeRef : CompleteBelow n typeRef TypePhrase (· != .bang) :=
  .recursive typeRef_eq complete_typeRefOf

/-! ## Arguments and selections -/

theorem starts_argument : Starts ArgumentPhrase isName := by
  intro ts a h
  obtain ⟨text, -⟩ := h
  exact ⟨_, _, rfl, rfl⟩

theorem complete_argument : CompleteBelow n argument ArgumentPhrase (fun _ => true) := by
  intro ts a rest hn h _
  obtain ⟨text, hv⟩ := h
  refine (reads_name_cons text).bind ?_
  refine reads_token_cons.bind ?_
  simp only [List.length_cons] at hn
  exact (complete_value (n := n) (by omega) hv (fun _ _ => rfl)).bind reads_self

theorem complete_arguments :
    CompleteBelow n arguments (Group ArgumentPhrase) (· != .parenL) :=
  .group sound_argument starts_argument (fun _ _ => rfl) rfl complete_argument

theorem starts_directive : Starts DirectivePhrase (· == .atSign) := by
  intro ts d h
  obtain ⟨text, -⟩ := h
  exact ⟨_, _, rfl, rfl⟩

theorem complete_directive : CompleteBelow n directive DirectivePhrase (· != .parenL) := by
  intro ts d rest hn h hrest
  obtain ⟨text, has⟩ := h
  refine reads_token_cons.bind ?_
  refine (reads_name_cons text).bind ?_
  simp only [List.length_cons] at hn
  exact (complete_arguments (n := n) (by omega) has hrest).bind reads_self

/-- What directives do not go on with. -/
def endsDirectives (t : Token) : Bool := t != .parenL && t != .atSign

theorem complete_directives :
    CompleteBelow n directives (Many DirectivePhrase) endsDirectives :=
  complete_directive.many sound_directive starts_directive (all_eq rfl)

theorem starts_selectionSet : Starts SelectionSetPhrase (· == .braceL) := by
  intro ts s h
  obtain ⟨-, -⟩ := h
  exact ⟨_, _, rfl, rfl⟩

/-- What a field does not go on with. -/
def endsField (t : Token) : Bool :=
  t != .colon && endsDirectives t && t != .braceL

theorem misses_renamed (h : Ahead (· != .colon) rest) :
    Misses (do token .colon .field; name) rest :=
  (misses_token h).bind

theorem reads_renamed (text : String) :
    Reads (do token .colon .field; name) (.colon :: .name text :: rest) ⟨text⟩ rest :=
  reads_token_cons.bind (reads_name_cons text)

theorem complete_fragmentSpread :
    CompleteBelow n fragmentSpread FragmentSpreadPhrase endsDirectives := by
  intro _ _ rest hn h hrest
  obtain @⟨text, ts, ds, hon, hds⟩ := h
  simp only [List.length_cons] at hn
  refine reads_token_cons.bind ?_
  have hname : Misses (keyword "on" .fragmentSpread) (.name text :: (ts ++ rest)) :=
    misses_keyword_cons.mpr (by simpa using hon)
  have hds' := complete_directives (n := n) (by omega) hds hrest
  exact (reads_unless hname).bind ((reads_name_cons text).bind (hds'.bind reads_self))

/-- After three dots there is a fragment spread only with a name that is not the
word `on`. -/
theorem misses_fragmentSpread (h : Ahead (fun t => !isName t || t == .name "on") rest) :
    Misses fragmentSpread (.spread :: rest) := by
  refine misses_of_not_reads fun s rest' hs => ?_
  obtain ⟨_, heq, @⟨text, ts, ds, hon, -⟩⟩ := sound_fragmentSpread hs
  cases heq
  have := h _ rfl
  simp [isName, hon] at this

theorem starts_condition : Starts ConditionPhrase (· == .name "on") := by
  intro ts t h
  obtain ⟨-⟩ := h
  exact ⟨_, _, rfl, beq_self_eq_true _⟩

theorem complete_condition (kind : Kind) :
    CompleteBelow n (do keyword "on" kind; namedType) ConditionPhrase (fun _ => true) := by
  intro _ _ rest hn h _
  obtain @⟨ts, t, ht⟩ := h
  simp only [List.length_cons] at hn
  refine reads_keyword_cons.bind ?_
  exact complete_namedType (n := n) (by omega) ht (fun _ _ => rfl)

theorem starts_field : Starts FieldPhrase isName := by
  rintro _ _ ⟨⟨text⟩ | ⟨other, text⟩, -, -, -⟩ <;> exact ⟨_, _, rfl, rfl⟩

/-- What a selection starts with. -/
def opensSelection (t : Token) : Bool := isName t || t == .spread

theorem starts_selection : Starts SelectionPhrase opensSelection := by
  rintro _ _ (⟨⟨⟨text⟩ | ⟨other, text⟩, -, -, -⟩⟩ | ⟨⟨-, -⟩⟩ | ⟨⟨-, -, -⟩⟩) <;>
    exact ⟨_, _, rfl, rfl⟩

theorem endsField_of_opens : ∀ t, opensSelection t = true → endsField t = true := by
  intro t ht
  cases t <;> first | rfl | cases ht

section Selections
variable (h : CompleteBelow n selectionSet SelectionSetPhrase (fun _ => true))
include h

theorem complete_fieldOf : CompleteBelow n (fieldOf selectionSet) FieldPhrase endsField := by
  intro _ _ rest hn hx hrest
  obtain @⟨ns, ts, us, vs, aliasName, name, as, ds, set, hns, has, hds, hset⟩ := hx
  simp only [List.length_append] at hn
  simp only [List.append_assoc]
  -- From the last part to the first one, since what follows a part is known then.
  have hset' : Reads (optional selectionSet) (vs ++ rest) set rest :=
    h.optional sound_selectionSet starts_selectionSet (by omega) hset hrest.right
  have hvs : Ahead endsDirectives (vs ++ rest) :=
    starts_selectionSet.ahead_opt hset (all_eq rfl) hrest.left.right
  have hus : Ahead (· != .parenL) (us ++ (vs ++ rest)) :=
    starts_directive.ahead_many hds (all_eq rfl) hvs.left
  have hts : Ahead (· != .colon) (ts ++ (us ++ (vs ++ rest))) :=
    ahead_group has rfl <| starts_directive.ahead_many hds (all_eq rfl) <|
      starts_selectionSet.ahead_opt hset (all_eq rfl) hrest.left.left
  have has' := complete_arguments (n := n) (by omega) has hus
  have hds' := complete_directives (n := n) (by omega) hds hvs
  -- The first name is an alias only where a colon follows it.
  rcases hns with ⟨text⟩ | ⟨other, text⟩
  · refine (reads_name_cons text).bind ?_
    refine Reads.bind (reads_optional.mpr (.inr ⟨misses_renamed hts, rfl, rfl⟩)) ?_
    exact has'.bind (hds'.bind (hset'.bind reads_self))
  · refine (reads_name_cons other).bind ?_
    refine Reads.bind (reads_optional.mpr (.inl ⟨_, rfl, reads_renamed text⟩)) ?_
    exact has'.bind (hds'.bind (hset'.bind reads_self))

theorem complete_inlineFragmentOf (rest : List Token) {us vs : List Token}
    {condition : Option NamedType} {ds : List Directive} {set : SelectionSet}
    (hn : ts.length + us.length + vs.length < n)
    (hc : Opt ConditionPhrase ts condition) (hds : Many DirectivePhrase us ds)
    (hset : SelectionSetPhrase vs set) :
    Reads (inlineFragmentOf selectionSet) (.spread :: (ts ++ (us ++ (vs ++ rest))))
      ⟨condition, ds, set⟩ rest := by
  have hvs : Ahead endsDirectives (vs ++ rest) := starts_selectionSet.ahead hset (all_eq rfl)
  have hus : Ahead (fun t => true && t != .name "on") (us ++ (vs ++ rest)) :=
    starts_directive.ahead_many hds (all_eq rfl) (starts_selectionSet.ahead hset (all_eq rfl))
  refine reads_token_cons.bind ?_
  have hc' := (complete_condition (n := n) .inlineFragment).optional sound_condition
    starts_condition (by omega) hc hus
  have hds' := complete_directives (n := n) (by omega) hds hvs
  have hset' := h (by omega) hset (.any rest)
  exact hc'.bind (hds'.bind (hset'.bind reads_self))

theorem complete_inlineFragment :
    CompleteBelow n inlineFragment InlineFragmentPhrase (fun _ => true) := by
  intro _ _ rest hn hx _
  obtain @⟨ts, us, vs, condition, ds, set, hc, hds, hset⟩ := hx
  simp only [List.length_cons, List.length_append] at hn
  simp only [List.cons_append, List.append_assoc]
  exact complete_inlineFragmentOf h rest (by omega) hc hds hset

theorem complete_selectionOf :
    CompleteBelow n (selectionOf selectionSet) SelectionPhrase endsField := by
  intro _ _ rest hn hx hrest
  rcases hx with hf | hs | hi
  · have hdots : Ahead (· != .spread) (_ ++ rest) := starts_field.ahead hf (all_names fun _ => rfl)
    refine .past (misses_attempt.mpr (misses_token hdots).bind.bind) ?_
    refine .past (misses_attempt.mpr (misses_token hdots).bind.bind) ?_
    have hfield := complete_fieldOf h hn hf hrest
    exact reads_expecting.mpr (reads_attempt.mpr (hfield.bind reads_self))
  · have hspread := complete_fragmentSpread hn hs hrest.left.right
    exact .here (reads_attempt.mpr (hspread.bind reads_self))
  · rcases hi with @⟨ts, us, vs, condition, ds, set, hc, hds, hset⟩
    simp only [List.length_cons, List.length_append] at hn
    simp only [List.cons_append, List.append_assoc]
    refine .past (misses_attempt.mpr (misses_fragmentSpread ?_).bind) (.here ?_)
    · exact starts_condition.ahead_opt hc (all_eq rfl) <|
        starts_directive.ahead_many hds (all_eq rfl) (starts_selectionSet.ahead hset (all_eq rfl))
    · have hfragment := complete_inlineFragmentOf h rest (by omega) hc hds hset
      exact reads_attempt.mpr (hfragment.bind reads_self)

theorem complete_selectionSetOf :
    CompleteBelow (n + 1) (selectionSetOf selectionSet) SelectionSetPhrase (fun _ => true) := by
  intro _ _ rest hn hx _
  obtain @⟨ts, ss, hss, hne⟩ := hx
  simp only [List.length_append, List.length_cons] at hn
  simp only [List.cons_append, List.append_assoc, List.nil_append]
  have hmembers := (complete_selectionOf h).many1 (sound_selectionOf sound_selectionSet)
    starts_selection endsField_of_opens (by omega) ⟨hss, hne⟩ (.cons .braceR rest rfl)
  exact reads_token_cons.bind (hmembers.bind (reads_token_cons.bind reads_self))

end Selections

theorem complete_selectionSet :
    CompleteBelow n selectionSet SelectionSetPhrase (fun _ => true) :=
  .recursive selectionSet_eq complete_selectionSetOf

/-! ## Definitions and documents -/

theorem starts_default : Starts DefaultPhrase (· == .equals) := by
  intro ts v h
  obtain ⟨-⟩ := h
  exact ⟨_, _, rfl, rfl⟩

theorem complete_default :
    CompleteBelow n (do token .equals .variableDefinition; value) DefaultPhrase
      (fun _ => true) := by
  intro _ _ rest hn h _
  obtain @⟨ts, v, hv⟩ := h
  simp only [List.length_cons] at hn
  exact reads_token_cons.bind (complete_value (n := n) (by omega) hv (.any rest))

theorem starts_variableDefinition : Starts VariableDefinitionPhrase (· == .dollar) := by
  intro _ _ h
  obtain ⟨⟨text⟩, -, -, -⟩ := h
  exact ⟨_, _, rfl, rfl⟩

/-- What a variable definition does not go on with. -/
def endsVariableDefinition (t : Token) : Bool := t != .bang && t != .equals && endsDirectives t

theorem complete_variableDefinition :
    CompleteBelow n variableDefinition VariableDefinitionPhrase endsVariableDefinition := by
  intro _ _ rest hn h hrest
  obtain @⟨ts, us, vs, ws, v, t, o, ds, hv, ht, ho, hds⟩ := h
  simp only [List.length_append, List.length_cons] at hn
  simp only [List.append_assoc, List.cons_append]
  have hws : Ahead (fun t => true && t != .equals) (ws ++ rest) :=
    starts_directive.ahead_many hds (all_eq rfl) hrest.left.right
  have hvs : Ahead (· != .bang) (vs ++ (ws ++ rest)) :=
    starts_default.ahead_opt ho (all_eq rfl) <|
      starts_directive.ahead_many hds (all_eq rfl) hrest.left.left
  have hv' := complete_variableRef (n := n) (by omega) hv
    (.any (.colon :: (us ++ (vs ++ (ws ++ rest)))))
  have ht' := complete_typeRef (n := n) (by omega) ht hvs
  have ho' := (complete_default (n := n)).optional sound_default starts_default (by omega) ho hws
  have hds' := complete_directives (n := n) (by omega) hds hrest.right
  exact hv'.bind (reads_token_cons.bind (ht'.bind (ho'.bind (hds'.bind reads_self))))

theorem complete_variableDefinitions :
    CompleteBelow n variableDefinitions (Group VariableDefinitionPhrase) (· != .parenL) :=
  .group sound_variableDefinition starts_variableDefinition (all_eq rfl) rfl
    complete_variableDefinition

theorem complete_operationKind (k : OperationKind) :
    Reads operationKind (.name k.keyword :: rest) k rest := by
  cases k with
  | query => exact .here (reads_keyword_cons.bind reads_self)
  | mutation =>
    refine .past (misses_keyword_cons.mpr (by decide)).bind ?_
    exact .here (reads_keyword_cons.bind reads_self)
  | subscription =>
    refine .past (misses_keyword_cons.mpr (by decide)).bind ?_
    refine .past (misses_keyword_cons.mpr (by decide)).bind ?_
    exact reads_keyword_cons.bind reads_self

theorem complete_operationDefinition :
    CompleteBelow n operationDefinition OperationDefinitionPhrase (fun _ => true) := by
  intro _ _ rest hn h _
  obtain @⟨_, ns, ts, us, vs, k, name, declared, ds, set, ⟨⟩, hname, hdeclared, hds, hset⟩ := h
  simp only [List.length_append, List.length_cons] at hn
  simp only [List.append_assoc, List.cons_append, List.nil_append]
  have hvs : Ahead endsDirectives (vs ++ rest) := starts_selectionSet.ahead hset (all_eq rfl)
  have hus : Ahead (· != .parenL) (us ++ (vs ++ rest)) :=
    starts_directive.ahead_many hds (all_eq rfl) hvs.left
  have hts : Ahead (fun t => true && !isName t) (ts ++ (us ++ (vs ++ rest))) :=
    ahead_group hdeclared rfl <| starts_directive.ahead_many hds (all_eq rfl) <|
      starts_selectionSet.ahead hset (all_eq rfl)
  have hname' := (complete_name (n := n)).optional sound_name starts_name (by omega) hname hts
  have hdeclared' := complete_variableDefinitions (n := n) (by omega) hdeclared hus
  have hds' := complete_directives (n := n) (by omega) hds hvs
  have hset' := complete_selectionSet (n := n) (by omega) hset (.any rest)
  exact (complete_operationKind k).bind <|
    hname'.bind (hdeclared'.bind (hds'.bind (hset'.bind reads_self)))

theorem complete_fragmentDefinition :
    CompleteBelow n fragmentDefinition FragmentDefinitionPhrase (fun _ => true) := by
  intro _ _ rest hn h _
  obtain @⟨text, _, us, vs, condition, ds, set, hon, @⟨ts, _, hc⟩, hds, hset⟩ := h
  simp only [List.length_append, List.length_cons] at hn
  simp only [List.append_assoc, List.cons_append]
  have hvs : Ahead endsDirectives (vs ++ rest) := starts_selectionSet.ahead hset (all_eq rfl)
  have hc' := complete_namedType (n := n) (by omega) hc (.any (us ++ (vs ++ rest)))
  have hds' := complete_directives (n := n) (by omega) hds hvs
  have hset' := complete_selectionSet (n := n) (by omega) hset (.any rest)
  have hname : Misses (keyword "on" .fragmentDefinition)
      (.name text :: .name "on" :: (ts ++ (us ++ (vs ++ rest)))) :=
    misses_keyword_cons.mpr (by simpa using hon)
  refine reads_keyword_cons.bind ((reads_unless hname).bind ?_)
  refine (reads_name_cons text).bind (reads_keyword_cons.bind ?_)
  exact hc'.bind (hds'.bind (hset'.bind reads_self))

theorem starts_definition : Starts DefinitionPhrase isName := by
  rintro _ _ (⟨⟨⟨k⟩, -, -, -, -⟩⟩ | ⟨⟨-, -, -, -⟩⟩) <;> exact ⟨_, _, rfl, rfl⟩

theorem misses_operationDefinition : Misses operationDefinition (.name "fragment" :: rest) := by
  have hkind : Misses operationKind (.name "fragment" :: rest) := by
    refine misses_orElse.mpr ⟨?_, misses_orElse.mpr ⟨?_, ?_⟩⟩ <;>
      exact (misses_keyword_cons.mpr (by decide)).bind
  exact hkind.bind

theorem complete_definition :
    CompleteBelow n definition DefinitionPhrase (fun _ => true) := by
  intro ts _ rest hn h _
  rcases h with ho | hf
  · have ho' := complete_operationDefinition hn ho (.any rest)
    exact .here (reads_attempt.mpr (ho'.bind reads_self))
  · have hf' := complete_fragmentDefinition hn hf (.any rest)
    have hm : Misses operationDefinition (ts ++ rest) := by
      cases hf
      exact misses_operationDefinition
    refine .past (misses_attempt.mpr hm.bind) ?_
    exact reads_expecting.mpr (reads_attempt.mpr (hf'.bind reads_self))

/-- A document that starts with a selection set is that selection set, whatever
follows. -/
theorem complete_shorthand {s : SelectionSet} (h : SelectionSetPhrase ts s)
    (rest : List Token) :
    Reads document (ts ++ rest) ⟨[.operation (.ofSelectionSet s)]⟩ rest := by
  have hs := complete_selectionSet (Nat.lt_succ_self _) h (.any rest)
  have hquery : Reads queryShorthand (ts ++ rest) (.ofSelectionSet s) rest := hs.bind reads_self
  exact .here ((reads_attempt.mpr hquery).bind reads_self)

/-- A document that starts with a definition goes on for as many as there are. -/
theorem complete_definitions {ds : List Definition} (h : Many DefinitionPhrase ts ds)
    (hne : ds ≠ []) (hrest : Ahead (fun t => true && !isName t) rest) :
    Reads document (ts ++ rest) ⟨ds⟩ rest := by
  have hbrace : Ahead (· != .braceL) (ts ++ rest) := by
    cases h with
    | nil => exact absurd rfl hne
    | cons hd _ =>
      rw [List.append_assoc]
      exact starts_definition.ahead hd (all_names fun _ => rfl)
  have hm : Misses selectionSet (ts ++ rest) := by
    rw [selectionSet_eq]
    exact (misses_token hbrace).bind
  have hds := complete_definition.many1 sound_definition starts_definition (fun _ _ => rfl)
    (Nat.lt_succ_self _) ⟨h, hne⟩ hrest
  refine .past (misses_attempt.mpr hm.bind).bind ?_
  exact (reads_expecting.mpr hds).bind reads_self

theorem complete_document :
    CompleteBelow n document DocumentPhrase (fun t => true && !isName t) := by
  intro ts _ rest _ h hrest
  rcases h with hs | ⟨hds, hne⟩
  · exact complete_shorthand hs rest
  · exact complete_definitions hds hne hrest

/-! ## What is no document -/

/-- Where a document is read and something is left, all of it is no document. -/
theorem not_document_of_reads {d e : Document} (h : Reads document (ts ++ rest) d rest)
    (hne : rest ≠ []) : ¬ DocumentPhrase (ts ++ rest) e := by
  intro he
  have hall := complete_document (Nat.lt_succ_self _) he (.nil _)
  rw [List.append_nil] at hall
  exact hne (h.unique hall).2

/-- Nothing follows a selection set that is a document. -/
theorem not_document_after {s : SelectionSet} {e : Document} (hs : SelectionSetPhrase ts s)
    (hne : rest ≠ []) : ¬ DocumentPhrase (ts ++ rest) e :=
  not_document_of_reads (complete_shorthand hs rest) hne

/-- No selection set follows definitions. -/
theorem not_document_before {ds : List Definition} {us : List Token} {s : SelectionSet}
    {e : Document} (hds : Many DefinitionPhrase ts ds) (hne : ds ≠ [])
    (hs : SelectionSetPhrase us s) (rest : List Token) :
    ¬ DocumentPhrase (ts ++ (us ++ rest)) e := by
  have hrest : us ++ rest ≠ [] := by
    obtain ⟨t, vs, rfl, -⟩ := starts_selectionSet hs
    exact List.cons_ne_nil t _
  have hbrace : Ahead (fun t => true && !isName t) (us ++ rest) :=
    starts_selectionSet.ahead hs (all_eq rfl)
  exact not_document_of_reads (complete_definitions hds hne hbrace) hrest

/-! ## Entries -/

theorem complete_boolean :
    CompleteBelow n boolean (Entry.sort .booleanValue) (fun _ => true) := by
  intro _ _ rest _ h _
  obtain ⟨hk, hv⟩ := h
  cases hv <;> cases hk
  · exact .here (reads_keyword_cons.bind reads_self)
  · refine .past (misses_keyword_cons.mpr (by decide)).bind ?_
    exact reads_keyword_cons.bind reads_self

theorem complete_int : CompleteBelow n int (Entry.sort .intValue) (fun _ => true) := by
  intro _ _ rest _ h _
  obtain ⟨hk, hv⟩ := h
  refine reads_int.mpr ⟨?_, hk⟩
  cases hv <;> cases hk
  exact reads_terminal.mpr ⟨_, rfl, by simp [*]⟩

theorem complete_float : CompleteBelow n float (Entry.sort .floatValue) (fun _ => true) := by
  intro _ _ rest _ h _
  obtain ⟨hk, hv⟩ := h
  refine reads_float.mpr ⟨?_, hk⟩
  cases hv <;> cases hk
  exact reads_terminal.mpr ⟨_, rfl, by simp [*]⟩

theorem complete_string : CompleteBelow n string (Entry.sort .stringValue) (fun _ => true) := by
  intro _ _ rest _ h _
  obtain ⟨hk, hv⟩ := h
  cases hv <;> cases hk
  exact reads_terminal.mpr ⟨_, rfl, rfl⟩

theorem complete_enum : CompleteBelow n enum (Entry.sort .enumValue) (fun _ => true) := by
  intro _ _ rest _ h _
  obtain ⟨hk, hv⟩ := h
  cases hv <;> cases hk
  exact reads_terminal.mpr ⟨_, rfl, by simp [*]⟩

theorem complete_list : CompleteBelow n list (Entry.sort .listValue) (fun _ => true) := by
  intro _ _ rest hn h _
  obtain ⟨hk, hv⟩ := h
  cases hv <;> cases hk
  simp only [List.length_append, List.length_cons] at hn
  exact complete_listOf complete_value (n := n) (by omega) ‹_›

theorem complete_object : CompleteBelow n object (Entry.sort .objectValue) (fun _ => true) := by
  intro _ _ rest hn h _
  obtain ⟨hk, hv⟩ := h
  cases hv <;> cases hk
  simp only [List.length_append, List.length_cons] at hn
  exact complete_objectOf complete_value (n := n) (by omega) ‹_›

theorem complete_seen {α : Type} [IsNode α] {r : Rule α} {p : Phrase α} {follow : Token → Bool}
    (hr : ∀ n, CompleteBelow n r p follow) {ts : List Token} {m : Node} (h : asNode p ts m) :
    Reads (Entry.seen r) ts m [] := by
  obtain ⟨a, ha, rfl⟩ := h
  have := hr _ (Nat.lt_succ_self _) ha (.nil follow)
  rw [List.append_nil] at this
  exact this.bind reads_self

/-- Where terminals are a construct, the rule for it reads them to the end. -/
theorem complete_entry (e : Entry) {ts : List Token} {m : Node} (h : e.phrase ts m) :
    Reads e.rule ts m [] := by
  match e with
  | .document => exact complete_seen (fun _ => complete_document) h
  | .definition => exact complete_seen (fun _ => complete_definition) h
  | .operationDefinition => exact complete_seen (fun _ => complete_operationDefinition) h
  | .fragmentDefinition => exact complete_seen (fun _ => complete_fragmentDefinition) h
  | .variableDefinition => exact complete_seen (fun _ => complete_variableDefinition) h
  | .typeRef => exact complete_seen (fun _ => complete_typeRef) h
  | .namedType => exact complete_seen (fun _ => complete_namedType) h
  | .selectionSet => exact complete_seen (fun _ => complete_selectionSet) h
  | .selection => exact complete_seen (fun _ => complete_selectionOf complete_selectionSet) h
  | .field => exact complete_seen (fun _ => complete_fieldOf complete_selectionSet) h
  | .fragmentSpread => exact complete_seen (fun _ => complete_fragmentSpread) h
  | .inlineFragment =>
    exact complete_seen (fun _ => complete_inlineFragment complete_selectionSet) h
  | .directive => exact complete_seen (fun _ => complete_directive) h
  | .argument => exact complete_seen (fun _ => complete_argument) h
  | .name => exact complete_seen (fun _ => complete_name) h
  | .variable => exact complete_seen (fun _ => complete_variableRef) h
  | .value => exact complete_seen (fun _ => complete_value) h
  | .booleanValue => exact complete_seen (fun _ => complete_boolean) h
  | .intValue => exact complete_seen (fun _ => complete_int) h
  | .floatValue => exact complete_seen (fun _ => complete_float) h
  | .stringValue => exact complete_seen (fun _ => complete_string) h
  | .enumValue => exact complete_seen (fun _ => complete_enum) h
  | .listValue => exact complete_seen (fun _ => complete_list) h
  | .objectValue => exact complete_seen (fun _ => complete_object) h
  | .objectField => exact complete_seen (fun _ => complete_objectField) h

/-- A rule reads terminals to the end exactly where they are its construct. -/
theorem reads_entry (e : Entry) {ts : List Token} {m : Node} :
    Reads e.rule ts m [] ↔ e.phrase ts m := by
  constructor
  · intro h
    obtain ⟨us, rfl, hus⟩ := sound_entry e h
    rwa [List.append_nil]
  · exact complete_entry e

end QueryDoc.Rule
