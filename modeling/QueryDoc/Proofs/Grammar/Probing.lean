import QueryDoc.Proofs.Grammar.Viable

/-! Each rule of the grammar misses terminals only after the beginning of a construct that
it reads. One lemma for each rule, from those for its parts; the three rules that read a
construct inside of itself do so on less input, so their lemmas are by induction on the
length of the input. -/
namespace QueryDoc.Rule
open Phrase

/-! ## Names and values -/

theorem probes_name : Probes name (Viable NamePhrase) :=
  .name ⟨[.name "a"], _, by decide, .name "a"⟩

theorem probes_variableRef : Probes variableRef (Viable VariablePhrase) := by
  refine .token_bind ⟨[.dollar, .name "a"], _, by decide, .variable "a"⟩ (.map ?_ _)
  exact .name ⟨[.name "a"], _, by decide, .variable "a"⟩

theorem viable_null : Viable ValuePhrase [] := ⟨[.name "null"], _, by decide, .null⟩

section Sorts
variable {ok : List Token → Prop} (h : ok [])
include h

/-- A value of a single terminal is missed at its start only. -/
theorem probes_boolean : Probes boolean ok :=
  .orElse (.map (.keyword h) _) (.map (.keyword h) _)

theorem probes_int : Probes int ok := by
  refine .attempt (.bind sound_number (.terminal h) fun us v _ => ?_)
  cases v <;> first | exact .nothing | exact .fail

theorem probes_float : Probes float ok := by
  refine .attempt (.bind sound_number (.terminal h) fun us v _ => ?_)
  cases v <;> first | exact .nothing | exact .fail

end Sorts

section Items
variable {item : Rule Value} (hs : Sound item ValuePhrase) (hi : Probes item (Viable ValuePhrase))

include hs hi in
theorem probes_listOf : Probes (listOf item) (Viable (Entry.sort .listValue)) := by
  refine .enclosed (sound_many hs) (.many hs hi) ?_ fun seen h => ?_
  · exact ⟨[.bracketL, .bracketR], _, by decide, rfl, .list .nil⟩
  · exact h.into [.bracketR] (by decide) fun more vs hvs => ⟨_, by simp, _, rfl, .list hvs⟩

include hi in
theorem probes_objectFieldOf : Probes (objectFieldOf item) (Viable ObjectFieldPhrase) := by
  have hfield : ∀ text seen, Viable ValuePhrase seen →
      Viable ObjectFieldPhrase (.name text :: .colon :: seen) := by
    intro text seen h
    exact h.into [] (by decide) fun more v hv => ⟨_, by simp, _, .field text hv⟩
  refine .name_bind ?_ fun text => .token_bind ?_ (.map (hi.mono (hfield text)) _)
  · exact (hfield "a" [] viable_null).shorten [.name "a", .colon] (by decide)
  · exact (hfield text [] viable_null).shorten [.colon] (by decide)

include hs hi in
theorem probes_objectOf : Probes (objectOf item) (Viable (Entry.sort .objectValue)) := by
  refine .enclosed (sound_many (sound_objectFieldOf hs))
    (.many (sound_objectFieldOf hs) (probes_objectFieldOf hi)) ?_ fun seen h => ?_
  · exact ⟨[.braceL, .braceR], _, by decide, rfl, .object .nil⟩
  · exact h.into [.braceR] (by decide) fun more fs hfs => ⟨_, by simp, _, rfl, .object hfs⟩

include hs hi in
theorem probes_valueOf : Probes (valueOf item) (Viable ValuePhrase) := by
  have hsort : ∀ kind seen, Viable (Entry.sort kind) seen → Viable ValuePhrase seen :=
    fun kind seen h => h.imp fun ts v hv => ⟨v, hv.2⟩
  have hvariable : Probes variableRef (Viable ValuePhrase) :=
    probes_variableRef.mono fun seen h => h.imp fun ts v hv => ⟨_, .variable hv⟩
  refine .orElse (.map (.keyword viable_null) _) (.orElse (probes_boolean viable_null) ?_)
  refine .orElse (.attempt (.map hvariable _)) (.orElse (.terminal viable_null) ?_)
  refine .orElse (.terminal viable_null) (.orElse (.terminal viable_null) ?_)
  refine .orElse (.attempt ((probes_listOf hs hi).mono (hsort .listValue))) ?_
  exact .expecting (.attempt ((probes_objectOf hs hi).mono (hsort .objectValue)))

end Items

theorem probes_value : Probes value (Viable ValuePhrase) :=
  .recursive (fun input => by rw [value]) sound_value probes_valueOf

/-! ## Types -/

theorem probes_namedType : Probes namedType (Viable NamedTypePhrase) :=
  .map (.name ⟨[.name "a"], _, by decide, .named "a"⟩) _

theorem sound_takes {t : Token} {kind : Kind} :
    Sound (takes t kind) (fun ts b => b = true ∧ ts = [t] ∨ b = false ∧ ts = []) := by
  intro input b rest h
  rcases reads_takes.mp h with ⟨rfl, rfl⟩ | ⟨rfl, rfl, -⟩
  · exact ⟨[t], rfl, .inl ⟨rfl, rfl⟩⟩
  · exact ⟨[], rfl, .inr ⟨rfl, rfl⟩⟩

theorem probes_mark {core : TypeRef} {ok : List Token → Prop} (h : ok []) :
    Probes (do if ← takes .bang .nonNullType then return .nonNull core else return core) ok := by
  refine .bind sound_takes (.takes h) fun us b _ => ?_
  cases b <;> exact .nothing

theorem probes_typeRefOf {item : Rule TypeRef} (hs : Sound item TypePhrase)
    (hi : Probes item (Viable TypePhrase)) : Probes (typeRefOf item) (Viable TypePhrase) := by
  have hlist : ∀ ⦃seen⦄, Viable TypePhrase seen → Viable TypePhrase (.bracketL :: seen) := by
    intro seen h
    exact h.into [.bracketR] (by decide) fun more t ht => ⟨_, by simp, _, .nullable (.list ht)⟩
  have hname : Viable TypePhrase [] :=
    ⟨[.name "a"], _, by decide, .nullable (.named (.named "a"))⟩
  refine .bind sound_takes (.takes hname) ?_
  rintro us b (⟨rfl, rfl⟩ | ⟨rfl, rfl⟩)
  · refine .bind hs (hi.mono hlist) fun ts t hts => .token_bind ?_ (probes_mark ?_)
    · simpa using hlist (.of_phrase hts)
    · exact .of_phrase (.nullable (.list hts))
  · refine .bind sound_namedType (probes_namedType.mono ?_) fun ts t hts => probes_mark ?_
    · exact fun seen h => h.imp fun ts t ht => ⟨_, .nullable (.named ht)⟩
    · simpa using Viable.of_phrase (TypePhrase.nullable (.named hts))

theorem probes_typeRef : Probes typeRef (Viable TypePhrase) :=
  .recursive (fun input => by rw [typeRef]) sound_typeRef probes_typeRefOf

/-! ## Arguments and selections -/

theorem probes_argument : Probes argument (Viable ArgumentPhrase) := by
  have hvalue : ∀ text seen, Viable ValuePhrase seen →
      Viable ArgumentPhrase (.name text :: .colon :: seen) := by
    intro text seen h
    exact h.into [] (by decide) fun more v hv => ⟨_, by simp, _, .argument text hv⟩
  refine .name_bind ?_ fun text => .token_bind ?_ (.map (probes_value.mono (hvalue text)) _)
  · exact (hvalue "a" [] viable_null).shorten [.name "a", .colon] (by decide)
  · exact (hvalue text [] viable_null).shorten [.colon] (by decide)

theorem probes_arguments : Probes arguments (Viable (Group ArgumentPhrase)) :=
  .group sound_argument probes_argument

theorem probes_directive : Probes directive (Viable DirectivePhrase) := by
  have harguments : ∀ text seen, Viable (Group ArgumentPhrase) seen →
      Viable DirectivePhrase (.atSign :: .name text :: seen) := by
    intro text seen h
    exact h.into [] (by decide) fun more as has => ⟨_, by simp, _, .directive text has⟩
  have hplain := harguments "a" [] (.of_phrase .none)
  refine .token_bind (hplain.shorten [.atSign, .name "a"] (by decide)) ?_
  refine .name_bind (hplain.shorten [.name "a"] (by decide)) fun text => ?_
  exact .map (probes_arguments.mono (harguments text)) _

theorem probes_directives : Probes directives (Viable (Many DirectivePhrase)) :=
  .many sound_directive probes_directive

/-- The terminals of a shortest selection set. -/
def shortSet : List Token := [.braceL, .name "a", .braceR]

theorem writable_shortSet : Writable shortSet := by decide

theorem shortSet_phrase : SelectionSetPhrase shortSet ⟨[.field (.leaf ⟨"a"⟩)]⟩ := by
  have hfield : FieldPhrase [.name "a"] (.leaf ⟨"a"⟩) := .field (.plain "a") .none .nil .none
  exact .set (.cons (.field hfield) .nil) (List.cons_ne_nil _ _)

section Members
variable {members : Rule SelectionSet} (hs : Sound members SelectionSetPhrase)
variable (hm : Probes members (Viable SelectionSetPhrase))

include hs hm in
theorem probes_fieldOf : Probes (fieldOf members) (Viable FieldPhrase) := by
  have hfield : ∀ text, FieldPhrase [.name text] ⟨none, ⟨text⟩, [], [], none⟩ :=
    fun text => .field (.plain text) .none .nil .none
  refine .name_bind ⟨[.name "a"], _, by decide, hfield "a"⟩ fun one => ?_
  refine .bind (sound_optional sound_renamed) (.optional ?_) fun ns second hns => ?_
  · refine .token_bind (.of_phrase (hfield one)) (.name ?_)
    exact ⟨[.name "a"], _, by decide, .field (.aliased one "a") .none .nil .none⟩
  · obtain ⟨first, last, hnames⟩ : ∃ first last, FieldNamePhrase (.name one :: ns) (first, last) := by
      cases hns with
      | none => exact ⟨_, _, .plain one⟩
      | some hns =>
        obtain ⟨_, rfl, ⟨two⟩⟩ := hns
        exact ⟨_, _, .aliased one two⟩
    refine .bind sound_arguments (probes_arguments.mono fun seen h => ?_) fun ts as has => ?_
    · exact h.into [] (by decide) fun more as has => ⟨_, by simp, _, .field hnames has .nil .none⟩
    refine .bind sound_directives (probes_directives.mono fun seen h => ?_) fun us ds hds => ?_
    · exact h.into [] (by decide) fun more ds hds => ⟨_, by simp, _, .field hnames has hds .none⟩
    refine .bind (sound_optional hs) (.optional (hm.mono fun seen h => ?_)) fun vs set _ => ?_
    · exact h.into [] (by decide) fun more set hset =>
        ⟨_, by simp, _, .field hnames has hds (.some hset)⟩
    cases second <;> exact .nothing

theorem probes_fragmentSpread : Probes fragmentSpread (Viable FragmentSpreadPhrase) := by
  have hdirectives : ∀ text seen, text ≠ "on" → Viable (Many DirectivePhrase) seen →
      Viable FragmentSpreadPhrase (.spread :: .name text :: seen) := by
    intro text seen hne h
    exact h.into [] (by decide) fun more ds hds => ⟨_, by simp, _, .spread hne hds⟩
  have hplain := hdirectives "a" [] (by decide) (.of_phrase .nil)
  refine .token_bind (hplain.shorten [.spread, .name "a"] (by decide)) ?_
  refine .name_not_on_bind (hplain.shorten [.name "a"] (by decide)) fun text hne => ?_
  exact .map (probes_directives.mono fun seen => hdirectives text seen hne) _

include hm in
theorem probes_inlineFragmentOf :
    Probes (inlineFragmentOf members) (Viable InlineFragmentPhrase) := by
  have hshort : InlineFragmentPhrase (.spread :: shortSet) _ :=
    .fragment .none .nil shortSet_phrase
  refine .token_bind ⟨.spread :: shortSet, _, by decide, hshort⟩ ?_
  refine .bind (sound_optional sound_condition) (.optional ?_) fun ts condition hts => ?_
  · refine .keyword_bind ⟨shortSet, _, writable_shortSet, hshort⟩ (probes_namedType.mono ?_)
    exact fun seen h => h.into shortSet writable_shortSet fun more t ht =>
      ⟨_, by simp, _, .fragment (.some (.on ht)) .nil shortSet_phrase⟩
  refine .bind sound_directives (probes_directives.mono fun seen h => ?_) fun us ds hds => ?_
  · exact h.into shortSet writable_shortSet fun more ds hds =>
      ⟨_, by simp, _, .fragment hts hds shortSet_phrase⟩
  · refine .map (hm.mono fun seen h => ?_) _
    exact h.into [] (by decide) fun more set hset => ⟨_, by simp, _, .fragment hts hds hset⟩

include hs hm in
theorem probes_selectionOf : Probes (selectionOf members) (Viable SelectionPhrase) := by
  refine .orElse (.attempt (.map (probes_fragmentSpread.mono fun seen h => ?_) _)) ?_
  · exact h.imp fun ts s hs => ⟨_, .fragmentSpread hs⟩
  refine .orElse (.attempt (.map ((probes_inlineFragmentOf hm).mono fun seen h => ?_) _)) ?_
  · exact h.imp fun ts f hf => ⟨_, .inlineFragment hf⟩
  refine .expecting (.attempt (.map ((probes_fieldOf hs hm).mono fun seen h => ?_) _))
  exact h.imp fun ts f hf => ⟨_, .field hf⟩

include hs hm in
theorem probes_selectionSetOf : Probes (selectionSetOf members) (Viable SelectionSetPhrase) := by
  have hsound := sound_selectionOf hs
  refine .enclosed (sound_many1 hsound) (.many1 hsound (probes_selectionOf hs hm)) ?_ ?_
  · exact ⟨shortSet, _, writable_shortSet, shortSet_phrase⟩
  · exact fun seen h => h.into [.braceR] (by decide) fun more ss hss =>
      ⟨_, by simp, _, .set hss.1 hss.2⟩

end Members

theorem probes_selectionSet : Probes selectionSet (Viable SelectionSetPhrase) :=
  .recursive (fun input => by rw [selectionSet]) sound_selectionSet probes_selectionSetOf

/-! ## Definitions and documents -/

theorem probes_default :
    Probes (do token .equals .variableDefinition; value) (Viable DefaultPhrase) := by
  have hvalue : ∀ seen, Viable ValuePhrase seen → Viable DefaultPhrase (.equals :: seen) := by
    intro seen h
    exact h.into [] (by decide) fun more v hv => ⟨_, by simp, _, .equals hv⟩
  exact .token_bind ((hvalue [] viable_null).shorten [.equals] (by decide))
    (probes_value.mono hvalue)

theorem probes_variableDefinition :
    Probes variableDefinition (Viable VariableDefinitionPhrase) := by
  have hnamed : TypePhrase [.name "a"] (.named ⟨⟨"a"⟩⟩) := .nullable (.named (.named "a"))
  have hdeclared : ∀ ⦃seen⦄, Viable VariablePhrase seen → Viable VariableDefinitionPhrase seen := by
    intro seen h
    exact h.into [.colon, .name "a"] (by decide) fun more v hv =>
      ⟨_, by simp, _, .definition hv hnamed .none .nil⟩
  refine .bind sound_variableRef (probes_variableRef.mono hdeclared) fun ts v hv => ?_
  refine .token_bind (by simpa using hdeclared (.of_phrase hv)) ?_
  refine .bind sound_typeRef (probes_typeRef.mono fun seen h => ?_) fun us t ht => ?_
  · exact h.into [] (by decide) fun more t ht => ⟨_, by simp, _, .definition hv ht .none .nil⟩
  refine .bind (sound_optional sound_default) (.optional (probes_default.mono fun seen h => ?_))
    fun vs o ho => ?_
  · exact h.into [] (by decide) fun more w hw => ⟨_, by simp, _, .definition hv ht (.some hw) .nil⟩
  · refine .map (probes_directives.mono fun seen h => ?_) _
    exact h.into [] (by decide) fun more ds hds => ⟨_, by simp, _, .definition hv ht ho hds⟩

theorem probes_variableDefinitions :
    Probes variableDefinitions (Viable (Group VariableDefinitionPhrase)) :=
  .group sound_variableDefinition probes_variableDefinition

theorem probes_fragmentDefinition :
    Probes fragmentDefinition (Viable FragmentDefinitionPhrase) := by
  have hcondition : ∀ text seen, text ≠ "on" → Viable NamedTypePhrase seen →
      Viable FragmentDefinitionPhrase (.name "fragment" :: .name text :: .name "on" :: seen) := by
    intro text seen hne h
    exact h.into shortSet writable_shortSet fun more t ht =>
      ⟨_, by simp, _, .definition hne (.on ht) .nil shortSet_phrase⟩
  have htype : Viable NamedTypePhrase [] := ⟨[.name "a"], _, by decide, .named "a"⟩
  have hplain := hcondition "a" [] (by decide) htype
  refine .keyword_bind
    (hplain.shorten [.name "fragment", .name "a", .name "on"] (by decide)) ?_
  refine .name_not_on_bind (hplain.shorten [.name "a", .name "on"] (by decide))
    fun text hne => ?_
  refine .keyword_bind ((hcondition text [] hne htype).shorten [.name "on"] (by decide)) ?_
  refine .bind sound_namedType (probes_namedType.mono fun seen => hcondition text seen hne)
    fun ts t ht => ?_
  refine .bind sound_directives (probes_directives.mono fun seen h => ?_) fun us ds hds => ?_
  · exact h.into shortSet writable_shortSet fun more ds hds =>
      ⟨_, by simp, _, .definition hne (.on ht) hds shortSet_phrase⟩
  · refine .map (probes_selectionSet.mono fun seen h => ?_) _
    exact h.into [] (by decide) fun more set hset =>
      ⟨_, by simp, _, .definition hne (.on ht) hds hset⟩

theorem probes_operationKind : Probes operationKind (Viable OperationKindPhrase) := by
  have h : Viable OperationKindPhrase [] := ⟨[.name "query"], _, by decide, .keyword .query⟩
  exact .orElse (.map (.keyword h) _) (.orElse (.map (.keyword h) _) (.map (.keyword h) _))

theorem probes_operationDefinition :
    Probes operationDefinition (Viable OperationDefinitionPhrase) := by
  refine .bind sound_operationKind (probes_operationKind.mono fun seen h => ?_) fun ks k hk => ?_
  · exact h.into shortSet writable_shortSet fun more k hk =>
      ⟨_, by simp, _, .definition hk .none .none .nil shortSet_phrase⟩
  refine .bind (sound_optional sound_name) (.optional (probes_name.mono fun seen h => ?_))
    fun ns n hn => ?_
  · exact h.into shortSet writable_shortSet fun more n hn =>
      ⟨_, by simp, _, .definition hk (.some hn) .none .nil shortSet_phrase⟩
  refine .bind sound_variableDefinitions (probes_variableDefinitions.mono fun seen h => ?_)
    fun ts vs hvs => ?_
  · exact h.into shortSet writable_shortSet fun more vs hvs =>
      ⟨_, by simp, _, .definition hk hn hvs .nil shortSet_phrase⟩
  refine .bind sound_directives (probes_directives.mono fun seen h => ?_) fun us ds hds => ?_
  · exact h.into shortSet writable_shortSet fun more ds hds =>
      ⟨_, by simp, _, .definition hk hn hvs hds shortSet_phrase⟩
  · refine .map (probes_selectionSet.mono fun seen h => ?_) _
    exact h.into [] (by decide) fun more set hset => ⟨_, by simp, _, .definition hk hn hvs hds hset⟩

theorem probes_definition : Probes definition (Viable DefinitionPhrase) := by
  refine .orElse (.attempt (.map (probes_operationDefinition.mono fun seen h => ?_) _)) ?_
  · exact h.imp fun ts o ho => ⟨_, .operation ho⟩
  refine .expecting (.attempt (.map (probes_fragmentDefinition.mono fun seen h => ?_) _))
  exact h.imp fun ts f hf => ⟨_, .fragment hf⟩

theorem probes_document : Probes document (Viable DocumentPhrase) := by
  refine .orElse (.map (.attempt (.map (probes_selectionSet.mono fun seen h => ?_) _)) _) ?_
  · exact h.imp fun ts s hs => ⟨_, .shorthand hs⟩
  refine .map (.expecting ((Probes.many1 sound_definition probes_definition).mono fun seen h => ?_)) _
  exact h.imp fun ts ds hds => ⟨_, .definitions hds.1 hds.2⟩

/-! ## Entries -/

theorem probes_seen {α : Type} [IsNode α] {r : Rule α} {p : Phrase α} (hr : Probes r (Viable p)) :
    Probes (Entry.seen r) (Viable (asNode p)) :=
  .map (hr.mono fun _ h => h.imp fun _ a ha => ⟨_, a, ha, rfl⟩) _

/-- Where a rule of an entry misses a terminal, what it has read before is the beginning of a
construct that the entry stands for. -/
theorem probes_entry (e : Entry) : Probes e.rule (Viable e.phrase) := by
  match e with
  | .document => exact probes_seen probes_document
  | .definition => exact probes_seen probes_definition
  | .operationDefinition => exact probes_seen probes_operationDefinition
  | .fragmentDefinition => exact probes_seen probes_fragmentDefinition
  | .variableDefinition => exact probes_seen probes_variableDefinition
  | .typeRef => exact probes_seen probes_typeRef
  | .namedType => exact probes_seen probes_namedType
  | .selectionSet => exact probes_seen probes_selectionSet
  | .selection => exact probes_seen (probes_selectionOf sound_selectionSet probes_selectionSet)
  | .field => exact probes_seen (probes_fieldOf sound_selectionSet probes_selectionSet)
  | .fragmentSpread => exact probes_seen probes_fragmentSpread
  | .inlineFragment => exact probes_seen (probes_inlineFragmentOf probes_selectionSet)
  | .directive => exact probes_seen probes_directive
  | .argument => exact probes_seen probes_argument
  | .name => exact probes_seen probes_name
  | .variable => exact probes_seen probes_variableRef
  | .value => exact probes_seen probes_value
  | .booleanValue =>
    exact probes_seen (probes_boolean ⟨[.name "true"], _, by decide, rfl, .true⟩)
  | .intValue =>
    exact probes_seen (probes_int ⟨[.number "0"], _, by decide, rfl, .int (by decide)⟩)
  | .floatValue =>
    exact probes_seen
      (probes_float ⟨[.number "0.0"], _, by decide, rfl, .float (by decide)⟩)
  | .stringValue =>
    exact probes_seen (.terminal ⟨[.string "" false], _, by decide +kernel, rfl, .string "" false⟩)
  | .enumValue =>
    exact probes_seen (.terminal ⟨[.name "a"], _, by decide, rfl, .enum (by decide)⟩)
  | .listValue => exact probes_seen (probes_listOf sound_value probes_value)
  | .objectValue => exact probes_seen (probes_objectOf sound_value probes_value)
  | .objectField => exact probes_seen (probes_objectFieldOf probes_value)

/-- Every entry stands for some construct. -/
theorem viable_nil (e : Entry) : Viable e.phrase [] := by
  -- Where there is no terminal at all, each rule misses the first one.
  have h : .miss [] ∈ (e.rule []).trail := by cases e <;> decide +kernel
  obtain ⟨seen, heq, hseen⟩ := probes_entry e h
  rwa [(List.append_eq_nil_iff.mp heq.symm).1] at hseen

end QueryDoc.Rule
