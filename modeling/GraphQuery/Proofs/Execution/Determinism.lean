import GraphQuery.Proofs.Execution.Completes
import GraphQuery.Proofs.Execution.Masking
import GraphQuery.Proofs.Execution.Plan
import GraphQuery.Proofs.Schema.Exchange

/-! Completion leaves no choice once every resolver call has one answer, and it does not
depend on the resolvers except by their answers. What a call answers shows at its own place
and below, and nowhere else. -/

namespace GraphQuery

variable {ρ ρ' : Type}

/-! ## Masked traces -/

theorem Trace.masked_list_congr {hidden : Path → Bool} {path : Path} {item : TypeRef}
    {items others : List Trace}
    (same : maskedItems hidden path 0 items = maskedItems hidden path 0 others) :
    (Trace.list item items).masked hidden path = (Trace.list item others).masked hidden path := by
  simp only [masked, same]

theorem Trace.masked_object_congr {hidden : Path → Bool} {path : Path}
    {fields others : List (FieldPlace × Trace)}
    (same : maskedFields hidden path fields = maskedFields hidden path others) :
    (Trace.object fields).masked hidden path = (Trace.object others).masked hidden path := by
  simp only [masked, same]

namespace Setting

def Determined (setting : Setting ρ) : Prop :=
  ∀ field call first second, setting.Answers field call first →
    setting.Answers field call second → first = second

def answeredBy (setting : Setting ρ)
    (answers : FieldDefinition ρ → FieldCall → Except ResolverFault Json → Prop) : Setting ρ :=
  { setting with Answers := answers }

def AgreesBeside (setting : Setting ρ) (hidden : Path → Bool)
    (answers : FieldDefinition ρ → FieldCall → Except ResolverFault Json → Prop) : Prop :=
  ∀ field call first second, hidden call.path = false →
    setting.Answers field call first → answers field call second → first = second

section

variable {setting : Setting ρ} {hidden : Path → Bool}
  {answers : FieldDefinition ρ → FieldCall → Except ResolverFault Json → Prop}

mutual

/-- If only hidden calls have different answers, traces differ only where they are hidden. -/
theorem Completes.masked_eq (agree : setting.AgreesBeside hidden answers)
    {merged : MergedField} {site : FieldSite} :
    {type : TypeRef} → {value : Json} → {path : Path} → {first : Trace} →
    setting.Completes merged site type value path first → ⦃second : Trace⦄ →
    (setting.answeredBy answers).Completes merged site type value path second →
    first.masked hidden path = second.masked hidden path
  | _, _, _, _, .null nullable, _, other => by
      cases other with
      | null => rfl
      | accept => cases nullable
      | refuse => cases nullable
      | notList present => cases present
      | named present => cases present
  | _, _, path, _, .accept found completes, _, other => by
      have same := completes.masked_eq agree
      cases other with
      | null nullable => cases nullable
      | accept _ others => exact same others
      | refuse others =>
          cases seen : hidden path with
          | true => rw [Trace.masked_of_hidden seen, Trace.masked_of_hidden seen]
          | false => exact absurd (Trace.eq_null_of_masked seen (same others)) found
  | _, _, path, _, .refuse completes, _, other => by
      have same := completes.masked_eq agree
      cases other with
      | null nullable => cases nullable
      | accept found others =>
          cases seen : hidden path with
          | true => rw [Trace.masked_of_hidden seen, Trace.masked_of_hidden seen]
          | false => exact absurd (Trace.eq_null_of_masked seen (same others).symm) found
      | refuse => rfl
  | _, _, _, _, .list items, _, other => by
      have same := items.masked_eq agree
      cases other with
      | list others => exact Trace.masked_list_congr (same others)
      | notList _ different => exact absurd rfl (different _)
  | _, _, _, _, .notList present different, _, other => by
      cases other with
      | null => cases present
      | list => exact absurd rfl (different _)
      | notList => rfl
  | _, _, _, _, .named present isType completes, _, other => by
      have same := completes.masked_eq agree
      cases other with
      | null => cases present
      | named _ isAlsoType others =>
          cases isType.symm.trans isAlsoType
          exact same others
termination_by structural _ _ _ _ completes => completes

theorem CompletesNamed.masked_eq (agree : setting.AgreesBeside hidden answers)
    {merged : MergedField} {site : FieldSite} {name : String} :
    {type : Option (TypeDefinition ρ)} → {value : Json} → {path : Path} → {first : Trace} →
    setting.CompletesNamed merged site name type value path first → ⦃second : Trace⦄ →
    (setting.answeredBy answers).CompletesNamed merged site name type value path second →
    first.masked hidden path = second.masked hidden path
  | _, _, _, _, .scalar, _, other => by
      cases other
      rfl
  | _, _, _, _, .enum, _, other => by
      cases other
      rfl
  | _, _, _, _, .object completes, _, other => by
      have same := completes.masked_eq agree
      cases other with
      | object others => exact same others
  | _, _, _, _, .interface completes, _, other => by
      have same := completes.masked_eq agree
      cases other with
      | interface others => exact same others
  | _, _, _, _, .union completes, _, other => by
      have same := completes.masked_eq agree
      cases other with
      | union others => exact same others
  | _, _, _, _, .input, _, other => by
      cases other
      rfl
  | _, _, _, _, .unknown, _, other => by
      cases other
      rfl
termination_by structural _ _ _ _ completes => completes

theorem CompletesAbstract.masked_eq (agree : setting.AgreesBeside hidden answers)
    {merged : MergedField} {site : FieldSite} {name : String} :
    {type : TypeDefinition ρ} → {value : Json} → {path : Path} → {first : Trace} →
    setting.CompletesAbstract merged site name type value path first → ⦃second : Trace⦄ →
    (setting.answeredBy answers).CompletesAbstract merged site name type value path second →
    first.masked hidden path = second.masked hidden path
  | _, _, _, _, .resolved resolved completes, _, other => by
      have same := completes.masked_eq agree
      cases other with
      | resolved alsoResolved others =>
          cases resolved.symm.trans alsoResolved
          exact same others
      | unresolved unresolved => cases resolved.symm.trans unresolved
  | _, _, _, _, .unresolved unresolved, _, other => by
      cases other with
      | resolved resolved => cases unresolved.symm.trans resolved
      | unresolved => rfl
termination_by structural _ _ _ _ completes => completes

theorem CompletesItems.masked_eq (agree : setting.AgreesBeside hidden answers)
    {merged : MergedField} {site : FieldSite} {item : TypeRef} {path : Path} :
    {position : Nat} → {values : List Json} → {first : List Trace} →
    setting.CompletesItems merged site item path position values first → ⦃second : List Trace⦄ →
    (setting.answeredBy answers).CompletesItems merged site item path position values second →
    Trace.maskedItems hidden path position first = Trace.maskedItems hidden path position second
  | _, _, _, .nil, _, other => by
      cases other
      rfl
  | _, _, _, .cons head tail, _, other => by
      have sameHead := head.masked_eq agree
      have sameTail := tail.masked_eq agree
      cases other with
      | cons otherHead otherTail =>
          rw [Trace.maskedItems, Trace.maskedItems, sameHead otherHead, sameTail otherTail]
termination_by structural _ _ _ completes => completes

theorem CompletesObject.masked_eq (agree : setting.AgreesBeside hidden answers)
    {merged : MergedField} :
    {object : ObjectDefinition ρ} → {value : Json} → {path : Path} → {first : Trace} →
    setting.CompletesObject merged object value path first → ⦃second : Trace⦄ →
    (setting.answeredBy answers).CompletesObject merged object value path second →
    first.masked hidden path = second.masked hidden path
  | _, _, _, _, .fields collected all, _, other => by
      have same := all.masked_eq agree
      cases other with
      | fields alsoCollected others =>
          cases collected.symm.trans alsoCollected
          exact Trace.masked_object_congr (same others)
      | invalidSelections refused => cases collected.symm.trans refused
  | _, _, _, _, .invalidSelections refused, _, other => by
      cases other with
      | fields collected => cases refused.symm.trans collected
      | invalidSelections same =>
          cases refused.symm.trans same
          rfl
termination_by structural _ _ _ _ completes => completes

theorem CompletesFields.masked_eq (agree : setting.AgreesBeside hidden answers) :
    {object : ObjectDefinition ρ} → {parent : Json} → {path : Path} → {fields : FieldMap} →
    {first : List (FieldPlace × Trace)} →
    setting.CompletesFields object parent path fields first →
    ⦃second : List (FieldPlace × Trace)⦄ →
    (setting.answeredBy answers).CompletesFields object parent path fields second →
    Trace.maskedFields hidden path first = Trace.maskedFields hidden path second
  | _, _, _, _, _, .nil, _, other => by
      cases other
      rfl
  | _, _, _, _, _, .cons head tail, _, other => by
      have sameHead := head.masked_eq agree
      have sameTail := tail.masked_eq agree
      cases other with
      | cons otherHead otherTail =>
          obtain ⟨rfl, same⟩ := sameHead otherHead
          rw [Trace.maskedFields, Trace.maskedFields, same, sameTail otherTail]
termination_by structural _ _ _ _ _ completes => completes

theorem CompletesField.masked_eq (agree : setting.AgreesBeside hidden answers) :
    {object : ObjectDefinition ρ} → {parent : Json} → {path : Path} → {merged : MergedField} →
    {firstType : Option TypeRef} → {first : Trace} →
    setting.CompletesField object parent path merged firstType first →
    ⦃secondType : Option TypeRef⦄ → ⦃second : Trace⦄ →
    (setting.answeredBy answers).CompletesField object parent path merged secondType second →
    firstType = secondType ∧ first.masked hidden path = second.masked hidden path
  | _, _, _, _, _, _, .typeName isTypeName, _, _, other => by
      cases other with
      | typeName => exact ⟨rfl, rfl⟩
      | undefined different => exact absurd isTypeName different
      | defined different => exact absurd isTypeName different
  | _, _, _, _, _, _, .undefined different missing, _, _, other => by
      cases other with
      | typeName isTypeName => exact absurd isTypeName different
      | undefined => exact ⟨rfl, rfl⟩
      | defined _ defined => cases missing.symm.trans defined
  | _, _, _, _, _, _, .defined different defined completes, _, _, other => by
      have same := completes.masked_eq agree
      cases other with
      | typeName isTypeName => exact absurd isTypeName different
      | undefined _ missing => cases defined.symm.trans missing
      | defined _ alsoDefined others =>
          cases defined.symm.trans alsoDefined
          exact ⟨rfl, same others⟩
termination_by structural _ _ _ _ _ _ completes => completes

theorem CompletesDefined.masked_eq (agree : setting.AgreesBeside hidden answers) :
    {object : ObjectDefinition ρ} → {parent : Json} → {path : Path} → {merged : MergedField} →
    {field : FieldDefinition ρ} → {first : Trace} →
    setting.CompletesDefined object parent path merged field first → ⦃second : Trace⦄ →
    (setting.answeredBy answers).CompletesDefined object parent path merged field second →
    first.masked hidden path = second.masked hidden path
  | _, _, _, _, _, _, .refused refused, _, other => by
      cases other with
      | refused same =>
          cases refused.symm.trans same
          rfl
      | failed accepted => cases refused.symm.trans accepted
      | resolved accepted => cases refused.symm.trans accepted
  | _, _, path, _, _, _, .failed accepted answered, _, other => by
      cases seen : hidden path with
      | true => rw [Trace.masked_of_hidden seen, Trace.masked_of_hidden seen]
      | false =>
          cases other with
          | refused refused => cases accepted.symm.trans refused
          | failed same others =>
              cases accepted.symm.trans same
              cases agree _ _ _ _ seen answered others
              rfl
          | resolved same others =>
              cases accepted.symm.trans same
              cases agree _ _ _ _ seen answered others
  | _, _, path, _, _, _, .resolved accepted answered completes, _, other => by
      have same := completes.masked_eq agree
      cases seen : hidden path with
      | true => rw [Trace.masked_of_hidden seen, Trace.masked_of_hidden seen]
      | false =>
          cases other with
          | refused refused => cases accepted.symm.trans refused
          | failed alsoAccepted others =>
              cases accepted.symm.trans alsoAccepted
              cases agree _ _ _ _ seen answered others
          | resolved alsoAccepted others more =>
              cases accepted.symm.trans alsoAccepted
              cases agree _ _ _ _ seen answered others
              exact same more
termination_by structural _ _ _ _ _ _ completes => completes

end

end

theorem CompletesFields.unique {setting : Setting ρ} (determined : setting.Determined)
    {object : ObjectDefinition ρ} {parent : Json} {path : Path} {fields : FieldMap}
    {first second : List (FieldPlace × Trace)}
    (completes : setting.CompletesFields object parent path fields first)
    (others : setting.CompletesFields object parent path fields second) : first = second := by
  have same : Trace.maskedFields (fun _ => false) path first =
      Trace.maskedFields (fun _ => false) path second :=
    completes.masked_eq (fun field call one other _ => determined field call one other) others
  rwa [Trace.maskedFields_of_seen first fun _ => rfl,
    Trace.maskedFields_of_seen second fun _ => rfl] at same

/-! ## Exchanged resolvers -/

section

variable (exchange : ρ → ρ') (setting : Setting ρ)
  (answers : FieldDefinition ρ' → FieldCall → Except ResolverFault Json → Prop)

def exchanged : Setting ρ' where
  schema := setting.schema.map exchange
  fragments := setting.fragments
  bindings := setting.bindings
  context := setting.context
  Answers := answers

/-- Whatever the exchanged resolvers answer, the others may answer too. -/
def Allows : Prop :=
  ∀ field call result,
    answers (field.map exchange) call result → setting.Answers field call result

variable {exchange setting answers}

theorem merge_exchanged {object : ObjectDefinition ρ} (sets : List SelectionSet) :
    ((setting.exchanged exchange answers).expansion (object.map exchange)).merge sets =
      (setting.expansion object).merge sets :=
  Expansion.merge_map exchange (setting.expansion object) sets

mutual

theorem Completes.ofExchanged (allowed : Allows exchange setting answers)
    {merged : MergedField} {site : FieldSite} :
    {type : TypeRef} → {value : Json} → {path : Path} → {trace : Trace} →
    (setting.exchanged exchange answers).Completes merged site type value path trace →
    setting.Completes merged site type value path trace
  | _, _, _, _, .null nullable => .null nullable
  | _, _, _, _, .accept found completes => .accept found (completes.ofExchanged allowed)
  | _, _, _, _, .refuse completes => .refuse (completes.ofExchanged allowed)
  | _, _, _, _, .list items => .list (items.ofExchanged allowed)
  | _, _, _, _, .notList present other => .notList present other
  | _, _, _, _, .named present isType completes =>
      .named present rfl (completes.ofExchanged allowed _
        (isType.symm.trans (Schema.type?_map exchange setting.schema _)))

theorem CompletesNamed.ofExchanged (allowed : Allows exchange setting answers)
    {merged : MergedField} {site : FieldSite} {name : String} :
    {type : Option (TypeDefinition ρ')} → {value : Json} → {path : Path} → {trace : Trace} →
    (setting.exchanged exchange answers).CompletesNamed merged site name type value path trace →
    ∀ original : Option (TypeDefinition ρ), type = original.map (TypeDefinition.map exchange) →
    setting.CompletesNamed merged site name original value path trace
  | _, _, _, _, .scalar, some (.scalar _), rfl => .scalar
  | _, _, _, _, .enum, some (.enum _), rfl => .enum
  | _, _, _, _, .object completes, some (.object _), same =>
      .object (completes.ofExchanged allowed _ (by cases same; rfl))
  | _, _, _, _, .interface completes, some (.interface _), same =>
      .interface (completes.ofExchanged allowed _ (by cases same; rfl))
  | _, _, _, _, .union completes, some (.union _), same =>
      .union (completes.ofExchanged allowed _ (by cases same; rfl))
  | _, _, _, _, .input, some (.inputObject _), rfl => .input
  | _, _, _, _, .unknown, none, _ => .unknown

theorem CompletesAbstract.ofExchanged (allowed : Allows exchange setting answers)
    {merged : MergedField} {site : FieldSite} {name : String} :
    {type : TypeDefinition ρ'} → {value : Json} → {path : Path} → {trace : Trace} →
    (setting.exchanged exchange answers).CompletesAbstract merged site name type value path trace →
    ∀ original : TypeDefinition ρ, type = original.map exchange →
    setting.CompletesAbstract merged site name original value path trace
  | _, _, _, _, .resolved resolved completes, original, same => by
      have inner := completes.ofExchanged allowed
      subst same
      rcases Option.map_eq_some_iff.mp
        ((Schema.runtimeType?_map exchange setting.schema _ _ _).symm.trans resolved) with
        ⟨object, found, same⟩
      exact .resolved found (inner object same.symm)
  | _, _, _, _, .unresolved unresolved, original, same => by
      subst same
      exact .unresolved (Option.map_eq_none_iff.mp
        ((Schema.runtimeType?_map exchange setting.schema _ _ _).symm.trans unresolved))

theorem CompletesItems.ofExchanged (allowed : Allows exchange setting answers)
    {merged : MergedField} {site : FieldSite} {item : TypeRef} {path : Path} :
    {position : Nat} → {values : List Json} → {traces : List Trace} →
    (setting.exchanged exchange answers).CompletesItems merged site item path position values
      traces →
    setting.CompletesItems merged site item path position values traces
  | _, _, _, .nil => .nil
  | _, _, _, .cons first others =>
      .cons (first.ofExchanged allowed) (others.ofExchanged allowed)

theorem CompletesObject.ofExchanged (allowed : Allows exchange setting answers)
    {merged : MergedField} :
    {object : ObjectDefinition ρ'} → {value : Json} → {path : Path} → {trace : Trace} →
    (setting.exchanged exchange answers).CompletesObject merged object value path trace →
    ∀ original : ObjectDefinition ρ, object = original.map exchange →
    setting.CompletesObject merged original value path trace
  | _, _, _, _, .fields collected all, original, same => by
      have inner := all.ofExchanged allowed original same
      subst same
      exact .fields ((merge_exchanged _).symm.trans collected) inner
  | _, _, _, _, .invalidSelections refused, original, same => by
      subst same
      exact .invalidSelections ((merge_exchanged _).symm.trans refused)

theorem CompletesFields.ofExchanged (allowed : Allows exchange setting answers) :
    {object : ObjectDefinition ρ'} → {parent : Json} → {path : Path} → {fields : FieldMap} →
    {traces : List (FieldPlace × Trace)} →
    (setting.exchanged exchange answers).CompletesFields object parent path fields traces →
    ∀ original : ObjectDefinition ρ, object = original.map exchange →
    setting.CompletesFields original parent path fields traces
  | _, _, _, _, _, .nil, _, _ => .nil
  | _, _, _, _, _, .cons first others, original, same =>
      .cons (first.ofExchanged allowed original same) (others.ofExchanged allowed original same)

theorem CompletesField.ofExchanged (allowed : Allows exchange setting answers) :
    {object : ObjectDefinition ρ'} → {parent : Json} → {path : Path} → {merged : MergedField} →
    {type : Option TypeRef} → {trace : Trace} →
    (setting.exchanged exchange answers).CompletesField object parent path merged type trace →
    ∀ original : ObjectDefinition ρ, object = original.map exchange →
    setting.CompletesField original parent path merged type trace
  | _, _, _, _, _, _, .typeName isTypeName, original, same => by
      subst same
      exact .typeName isTypeName
  | _, _, _, _, _, _, .undefined other missing, original, same => by
      subst same
      exact .undefined other (Option.map_eq_none_iff.mp
        ((Entries.get?_map _ _ _).symm.trans missing))
  | _, _, _, _, _, _, .defined other defined completes, original, same => by
      have inner := completes.ofExchanged allowed original
      subst same
      rcases Option.map_eq_some_iff.mp ((Entries.get?_map _ _ _).symm.trans defined) with
        ⟨field, found, rfl⟩
      exact .defined other found (inner rfl field rfl)

theorem CompletesDefined.ofExchanged (allowed : Allows exchange setting answers) :
    {object : ObjectDefinition ρ'} → {parent : Json} → {path : Path} → {merged : MergedField} →
    {field : FieldDefinition ρ'} → {trace : Trace} →
    (setting.exchanged exchange answers).CompletesDefined object parent path merged field trace →
    ∀ original : ObjectDefinition ρ, object = original.map exchange →
    ∀ declared : FieldDefinition ρ, field = declared.map exchange →
    setting.CompletesDefined original parent path merged declared trace
  | _, _, _, _, _, _, .refused refused, original, same, declared, alike => by
      subst same alike
      exact .refused ((Schema.coerceArguments_map _ _ _ _ _).symm.trans refused)
  | _, _, _, _, _, _, .failed accepted answers, original, same, declared, alike => by
      subst same alike
      exact .failed ((Schema.coerceArguments_map _ _ _ _ _).symm.trans accepted)
        (allowed _ _ _ answers)
  | _, _, _, _, _, _, .resolved accepted answers completes, original, same, declared, alike => by
      have inner := completes.ofExchanged allowed
      subst same alike
      exact .resolved ((Schema.coerceArguments_map _ _ _ _ _).symm.trans accepted)
        (allowed _ _ _ answers) inner

end

end

end Setting

end GraphQuery
