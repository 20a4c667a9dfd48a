import ContentSecurity.Proofs.OrderedMap
import ContentSecurity.Proofs.Runs
import ContentSecurity.Proofs.Store.Blame
import ContentSecurity.SitePolicies

/-!
What the message of a refusal tells. Where the names of directives have no quotes in them, the message
tells the whole refusal. Only of a fault that was found by a reader it has no more than the reader's words.
-/
namespace ContentSecurity

/-! ## The last quote -/

theorem append_quote_inj {front other words words' : List Char} (hw : '\'' ∉ words)
    (hw' : '\'' ∉ words') (h : front ++ '\'' :: words = other ++ '\'' :: words') :
    front = other ∧ words = words' := by
  -- The words are found from behind, up to the first quote.
  have hrun {front words : List Char} (hw : '\'' ∉ words) :
      (front ++ '\'' :: words).reverse.takeWhile (· != '\'') = words.reverse := by
    rw [List.reverse_append, List.reverse_cons, List.append_assoc]
    refine takeWhile_run_append (fun c hc => ?_) (by simp)
    rw [bne_iff_ne]
    rintro rfl
    exact hw (List.mem_reverse.1 hc)
  have hsame : words = words' := by
    rw [← List.reverse_inj, ← hrun hw, h, hrun hw']
  rw [hsame] at h
  exact ⟨List.append_cancel_right h, hsame⟩

namespace Refusal

/-! ## How messages are put together -/

/-- The character with which the message begins and, where that is a quote, the words behind the last
quote. No other kind of refusal begins and ends so. -/
def ends : Refusal → Char × String
  | unknownDirective _ => ('\'', " is an invalid CSP 1.0 directive")
  | notAlone _ _ => ('\'', " directive, but other values are set")
  | unknownAllowance _ => ('\'', " keyword")
  | unreadableSource _ _ => ('\'', " value")
  | unreadableTarget _ => ('\'', " value, must be of type RFC 3986")
  | unfitScope _ _ => ('\'', "")
  | configuration _ => ('C', "")
  | json _ => ('S', "")
  | header _ => ('H', "")
  | file _ => ('I', "")

/-- What stands between the first quote of such a message and the last. -/
def quoted : Refusal → String
  | unknownDirective directive => directive
  | notAlone directive value => value ++ "' is exclusive for '" ++ directive
  | unknownAllowance value => value ++ "' is an invalid CSP 1.0 'sandbox"
  | unreadableSource directive value => value ++ "' is an invalid CSP 1.0 '" ++ directive
  | unreadableTarget value => value ++ "' is an invalid 'report-uri"
  | unfitScope operation scope => scope ++ "' is not a valid policy scope for '" ++ operation
  | _ => ""

section Messages

variable (refusal : Refusal) (wording : Wording)

theorem head?_message : (refusal.message wording).toList.head? = some refusal.ends.1 := by
  cases refusal <;> unfold message <;> repeat rw [String.toList_append]
  all_goals rfl

theorem quote_notMem_ends : '\'' ∉ refusal.ends.2.toList := by
  cases refusal <;> dsimp only [ends] <;> decide

theorem toList_message (h : refusal.ends.1 = '\'') :
    (refusal.message wording).toList =
      '\'' :: refusal.quoted.toList ++ '\'' :: refusal.ends.2.toList := by
  cases refusal <;> unfold message <;> dsimp only [quoted, ends] at h ⊢ <;>
    repeat rw [String.toList_append]
  case configuration | json | header | file => exact absurd h (by decide)
  case unknownAllowance | unreadableTarget =>
    rw [List.cons_append, List.append_assoc, List.append_assoc]
    rfl
  all_goals rfl

theorem ends_of_ne (h : refusal.ends.1 ≠ '\'') : refusal.ends.2 = "" := by
  cases refusal
  case configuration | json | header | file => rfl
  all_goals exact absurd rfl h

end Messages

/-! ## What messages tell -/

/-- Directives and operations are named without quotes. -/
def NamesPlainly : Refusal → Prop
  | notAlone directive _ => '\'' ∉ directive.toList
  | unreadableSource directive _ => '\'' ∉ directive.toList
  | unfitScope operation _ => '\'' ∉ operation.toList
  | _ => True

/-- The refusals are the same, as far as words tell the faults that readers find. -/
def SameInWords (refusal : Refusal) (wording other : Wording) (refusal' : Refusal) : Prop :=
  match refusal, refusal' with
  | json fault, json fault' => wording.json fault = other.json fault'
  | file fault, file fault' => wording.file fault = other.file fault'
  | refusal, refusal' => refusal = refusal'

variable {refusal refusal' : Refusal} {wording other : Wording}

/-- Messages that are the same begin and end alike, and quote the same. -/
theorem ends_eq_of_message_eq (h : refusal.message wording = refusal'.message other) :
    refusal.ends = refusal'.ends ∧
      (refusal.ends.1 = '\'' → refusal.quoted = refusal'.quoted) := by
  have hinitial : refusal.ends.1 = refusal'.ends.1 := by
    have hhead := refusal.head?_message wording
    rw [h, head?_message] at hhead
    exact (Option.some.inj hhead).symm
  by_cases hquote : refusal.ends.1 = '\''
  · have hlist := congrArg String.toList h
    rw [toList_message _ _ hquote, toList_message _ _ (hinitial.symm.trans hquote)] at hlist
    obtain ⟨hquoted, hclosing⟩ :=
      append_quote_inj refusal.quote_notMem_ends refusal'.quote_notMem_ends hlist
    exact ⟨Prod.ext hinitial (String.toList_inj.1 hclosing),
      fun _ => String.toList_inj.1 (List.cons.inj hquoted).2⟩
  · have hclosing := refusal'.ends_of_ne (hinitial ▸ hquote)
    exact ⟨Prod.ext hinitial ((refusal.ends_of_ne hquote).trans hclosing.symm),
      fun hq => absurd hq hquote⟩

/-- Where a quote ends what stands between a value and a name without quotes, both can be told. -/
theorem value_name_inj {value value' frame name name' : String} (between : List Char)
    (hf : frame.toList = between ++ ['\'']) (hn : '\'' ∉ name.toList) (hn' : '\'' ∉ name'.toList)
    (h : value ++ frame ++ name = value' ++ frame ++ name') : value = value' ∧ name = name' := by
  have hlist := congrArg String.toList h
  have hassoc (start name : List Char) : start ++ (between ++ ['\'']) ++ name =
      (start ++ between) ++ '\'' :: name := by simp
  rw [String.toList_append, String.toList_append, String.toList_append, String.toList_append, hf,
    hassoc, hassoc] at hlist
  obtain ⟨hvalue, hname⟩ := append_quote_inj hn hn' hlist
  exact ⟨String.toList_inj.1 (List.append_cancel_right hvalue), String.toList_inj.1 hname⟩

/-- So the message tells the refusal. -/
theorem message_eq_iff (hr : refusal.NamesPlainly) (hr' : refusal'.NamesPlainly) :
    refusal.message wording = refusal'.message other ↔
      refusal.SameInWords wording other refusal' := by
  constructor
  · intro h
    obtain ⟨hends, hquoted⟩ := ends_eq_of_message_eq h
    cases refusal <;> cases refusal'
    case unknownDirective.unknownDirective => exact congrArg unknownDirective (hquoted rfl)
    case notAlone.notAlone =>
      obtain ⟨rfl, rfl⟩ := value_name_inj "' is exclusive for ".toList rfl hr hr' (hquoted rfl)
      rfl
    case unknownAllowance.unknownAllowance =>
      exact congrArg unknownAllowance ((String.append_left_inj _).1 (hquoted rfl))
    case unreadableSource.unreadableSource =>
      obtain ⟨rfl, rfl⟩ := value_name_inj "' is an invalid CSP 1.0 ".toList rfl hr hr' (hquoted rfl)
      rfl
    case unreadableTarget.unreadableTarget =>
      exact congrArg unreadableTarget ((String.append_left_inj _).1 (hquoted rfl))
    case unfitScope.unfitScope =>
      obtain ⟨rfl, rfl⟩ :=
        value_name_inj "' is not a valid policy scope for ".toList rfl hr hr' (hquoted rfl)
      rfl
    case configuration.configuration =>
      exact congrArg configuration ((String.append_right_inj _).1 h)
    case json.json => exact (String.append_right_inj _).1 h
    case header.header => exact congrArg header ((String.append_right_inj _).1 h)
    case file.file => exact (String.append_right_inj _).1 h
    all_goals exact absurd hends (by dsimp only [ends]; decide)
  · intro h
    unfold SameInWords at h
    split at h
    · exact congrArg ("Serialization error: " ++ ·) h
    · exact congrArg ("I/O error: " ++ ·) h
    · next hjson hfile =>
      subst h
      cases refusal
      case json fault => exact (hjson fault fault rfl rfl).elim
      case file fault => exact (hfile fault fault rfl rfl).elim
      all_goals rfl

end Refusal

/-! ## Refusals of listed values -/

/-- Its directives are named without quotes. -/
def Vocabulary.NamesPlainly (vocabulary : Vocabulary) : Prop :=
  ∀ name ∈ vocabulary.keys, '\'' ∉ name.toList

theorem Vocabulary.csp1_namesPlainly : csp1.NamesPlainly := by
  unfold NamesPlainly
  decide

theorem DirectiveForm.Refuses.namesPlainly {form : DirectiveForm} {name : String}
    {values : List String} {refusal : Refusal} (h : form.Refuses name values refusal)
    (hn : '\'' ∉ name.toList) : refusal.NamesPlainly := by
  cases h with
  | crowded => exact hn
  | unfit value =>
    unfold complaint
    cases form.kind with
    | sources => exact hn
    | allowances => trivial
    | reportTargets => trivial

namespace Vocabulary.NamesPlainly

variable {vocabulary : Vocabulary} (hv : vocabulary.NamesPlainly)

include hv

theorem readDirective {name : String} {values : List String} {refusal : Refusal}
    (h : vocabulary.readDirective name values = .error refusal) : refusal.NamesPlainly := by
  cases hf : vocabulary.get? name with
  | none =>
    rw [vocabulary.readDirective_of_get?_eq_none name values hf] at h
    cases h
    trivial
  | some form =>
    have hname : name ∈ vocabulary.keys := (vocabulary.mem_keys_iff name).2 (by rw [hf]; rfl)
    exact ((vocabulary.readDirective_eq_error_iff name values hf refusal).1 h).namesPlainly
      (hv name hname)

theorem add {store : Store} (hs : store.vocabulary = vocabulary) {scope : Scope}
    {listed : DirectiveValues} {refusal : Refusal} (h : store.add scope listed = .error refusal) :
    refusal.NamesPlainly := by
  cases ht : scope.disposition? with
  | none =>
    simp only [Store.add, ht] at h
    cases h
    have hoperation : '\'' ∉ "addToPolicy".toList := by decide
    exact hoperation
  | some target =>
    obtain ⟨entry, -, hread⟩ := (store.add_eq_error_iff ht listed refusal).1 h
    rw [hs] at hread
    exact hv.readDirective hread

theorem store {site : SitePolicies} {refusal : Refusal}
    (h : site.store vocabulary = .error refusal) : refusal.NamesPlainly := by
  simp only [SitePolicies.store, Store.ofValues] at h
  cases hf : (Store.blank vocabulary).add .enforce site.enforced with
  | error met =>
    rw [hf] at h
    cases h
    exact hv.add rfl hf
  | ok first =>
    obtain ⟨target, -, -, hnext⟩ := (Store.add_eq_ok_iff _ _ _ _).1 hf
    have hkept : first.vocabulary = vocabulary := by
      rw [hnext, Store.vocabulary_modify]
      rfl
    rw [hf] at h
    cases hr : first.add .reportOnly site.reported with
    | error met =>
      simp only [bind, Except.bind, hr] at h
      cases h
      exact hv.add hkept hr
    | ok second =>
      simp only [bind, Except.bind, hr] at h
      cases h

end Vocabulary.NamesPlainly

end ContentSecurity
