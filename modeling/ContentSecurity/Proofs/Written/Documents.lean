import ContentSecurity.Proofs.Json.Reading
import ContentSecurity.Proofs.OrderedMap
import ContentSecurity.Written.Amendments
import ContentSecurity.Written.SitePolicies

/-!
Documents that are written and read back. Listed values, the policies of a site and amendments are read
as they were written, in every order and with every text in its place. Nothing changes if some lists of one
value are written briefly, as that value alone.
-/
namespace ContentSecurity

namespace Written

open Json

/-! ## Brief writing -/

def writeValuesBriefly (brief : Bool) : List String → List Char
  | [only] => if brief then quote only else writeValues [only]
  | values => writeValues values

section Brief

variable (brief : List String → Bool)

/-- Of the lists of one value those are written briefly that are told by the names leading to them. -/
def writeDirectiveValuesBriefly (listed : DirectiveValues) : List Char :=
  writeObject (listed.entries.map fun (directive, values) =>
    (directive, writeValuesBriefly (brief [directive]) values))

def writeScopedValuesBriefly (listed : ScopedValues) : List Char :=
  writeObject (listed.entries.map fun (scope, listed) =>
    (scope, writeDirectiveValuesBriefly (fun names => brief (scope :: names)) listed))

def siteEntriesBriefly (site : SitePolicies) : List (String × List Char) := [
  ("enforce", writeDirectiveValuesBriefly (fun names => brief ("enforce" :: names)) site.enforced),
  ("report-only",
    writeDirectiveValuesBriefly (fun names => brief ("report-only" :: names)) site.reported),
  ("removal-mode", quote site.reach.name)]

def amendmentEntriesBriefly (amendments : Amendments) : List (String × List Char) :=
  (amendments.cleared.toList.map fun scope => ("clear", quote scope)) ++
  (if amendments.removed.isEmpty then []
    else [("removeFromPolicy", writeScopedValuesBriefly
      (fun names => brief ("removeFromPolicy" :: names)) amendments.removed)]) ++
  (if amendments.added.isEmpty then []
    else [("addToPolicy", writeScopedValuesBriefly
      (fun names => brief ("addToPolicy" :: names)) amendments.added)])

end Brief

end Written

def SitePolicies.renderBriefly (brief : List String → Bool) (site : SitePolicies) : String :=
  String.ofList (Json.writeObject (Written.siteEntriesBriefly brief site))

def Amendments.renderBriefly (brief : List String → Bool) (amendments : Amendments) : String :=
  String.ofList (Json.writeObject (Written.amendmentEntriesBriefly brief amendments))

namespace Written

open Json

theorem writeValuesBriefly_false (values : List String) :
    writeValuesBriefly false values = writeValues values := by
  unfold writeValuesBriefly
  split <;> rfl

theorem writeDirectiveValuesBriefly_false (listed : DirectiveValues) :
    writeDirectiveValuesBriefly (fun _ => false) listed = writeDirectiveValues listed := by
  simp only [writeDirectiveValuesBriefly, writeValuesBriefly_false, writeDirectiveValues]

theorem writeScopedValuesBriefly_false (listed : ScopedValues) :
    writeScopedValuesBriefly (fun _ => false) listed = writeScopedValues listed := by
  simp only [writeScopedValuesBriefly, writeDirectiveValuesBriefly_false, writeScopedValues]

end Written

/-- Plain writing is the case in which nothing is written briefly. -/
theorem SitePolicies.renderBriefly_false (site : SitePolicies) :
    site.renderBriefly (fun _ => false) = site.render := by
  simp only [renderBriefly, Written.siteEntriesBriefly, Written.writeDirectiveValuesBriefly_false, render]

theorem Amendments.renderBriefly_false (amendments : Amendments) :
    amendments.renderBriefly (fun _ => false) = amendments.render := by
  simp only [renderBriefly, Written.amendmentEntriesBriefly, Written.writeScopedValuesBriefly_false,
    render, Written.amendmentEntries]

namespace Written

open Json

/-! ## Listed values -/

theorem textsOf?_map_text (values : List String) : textsOf? (values.map .text) = some values := by
  induction values with
  | nil => rfl
  | cons first rest ih => simp only [List.map_cons, textsOf?, ih, Option.map_some]

theorem takes_readValues_writeValues (depth : Nat) (values : List String) :
    Takes (readValues (depth + 1)) (writeValues values) values := by
  have hitems : List.Forall₂ (fun text item => Opens text ∧ Takes (value true depth) text item)
      (values.map quote) (values.map .text) := by
    rw [List.forall₂_map_left_iff, List.forall₂_map_right_iff, List.forall₂_same]
    exact fun text _ => ⟨opens_quote text, takes_value_quote true depth text⟩
  intro rest
  simp only [readValues, writeValues, takes_value_writeList hitems rest, bind, Except.bind, valuesOf?,
    textsOf?_map_text]

theorem takes_readValues (depth : Nat) (brief : Bool) (values : List String) :
    Takes (readValues (depth + 1)) (writeValuesBriefly brief values) values := by
  unfold writeValuesBriefly
  split
  · next only =>
    cases brief with
    | false => exact takes_readValues_writeValues depth [only]
    | true =>
      intro rest
      simp only [readValues, if_true, takes_value_quote true (depth + 1) only rest, bind, Except.bind,
        valuesOf?]
  · exact takes_readValues_writeValues depth _

/-- Reads a member of a map. -/
def mapMember {α : Type} (item : Reader α) (name : String) (map : OrderedMap α) :
    Reader (OrderedMap α) := fun input => do
  let (found, rest) ← memberValue item input
  .ok (map.insert name found, rest)

/-- Entries that are read one by one come back to the map in which they stood. -/
theorem gathers_entries {α : Type} {item : Reader α} {write : String × α → List Char}
    (entries : List (String × α)) (h : ∀ entry ∈ entries, Takes item (write entry) entry.2)
    {map last : OrderedMap α} (hl : last.entries = map.entries ++ entries) :
    Gathers (mapMember item) map (entries.map fun entry => (entry.1, write entry)) last := by
  induction entries generalizing map with
  | nil =>
    obtain rfl : last = map := by
      cases last
      cases map
      simpa using hl
    exact .nil last
  | cons entry rest ih =>
    obtain ⟨name, value⟩ := entry
    rw [List.forall_mem_cons] at h
    have hnew : name ∉ map.keys := by
      have hnodup := last.nodup
      rw [hl, List.map_append, List.map_cons] at hnodup
      exact fun hm => (List.nodup_append.1 hnodup).2.2 name hm name List.mem_cons_self rfl
    have hfirst : Takes (mapMember item name map) (':' :: write (name, value))
        (map.insert name value) := by
      intro more
      simp only [mapMember, takes_memberValue h.1 more, bind, Except.bind]
    refine .cons hfirst (ih h.2 ?_)
    rw [map.entries_insert_of_not_mem hnew, hl, List.append_assoc, List.singleton_append]

/-- A map is read as deep as its items, and one deeper. -/
theorem takes_readMap {α : Type} {item : Nat → Reader α} {depth : Nat}
    {write : String × α → List Char} (map : OrderedMap α)
    (h : ∀ entry ∈ map.entries, Takes (item depth) (write entry) entry.2) :
    Takes (readMap item (depth + 1))
      (writeObject (map.entries.map fun entry => (entry.1, write entry))) map := by
  have hgathers : Gathers (mapMember (item depth)) ∅
      (map.entries.map fun entry => (entry.1, write entry)) map := gathers_entries map.entries h rfl
  intro rest
  have hmembers := takes_object hgathers rest
  simp only [readMap, writeObject, List.cons_append,
    dropBlanks_cons (show isBlank '\x7b' = false by decide)]
  exact hmembers

theorem takes_readDirectiveValues (depth : Nat) (brief : List String → Bool)
    (listed : DirectiveValues) :
    Takes (readDirectiveValues (depth + 2)) (writeDirectiveValuesBriefly brief listed) listed :=
  takes_readMap listed fun entry _ => takes_readValues depth _ entry.2

theorem takes_readScopedValues (depth : Nat) (brief : List String → Bool) (listed : ScopedValues) :
    Takes (readScopedValues (depth + 3)) (writeScopedValuesBriefly brief listed) listed :=
  takes_readMap listed fun entry _ => takes_readDirectiveValues depth _ entry.2

/-! ## The policies of a site -/

theorem takes_readReach (depth : Nat) (reach : RemovalReach) :
    Takes (readReach depth) (quote reach.name) reach := by
  intro rest
  simp only [readReach, dropBlanks_quote]
  rw [quote_append]
  simp only [readReachName, quoted_flatMap_escapeChar, String.ofList_toList, RemovalReach.ofName?_name,
    bind, Except.bind]

theorem gathers_site (brief : List String → Bool) (site : SitePolicies) :
    Gathers (siteMember (deepest - 1)) ⟨none, none, none⟩ (siteEntriesBriefly brief site)
      ⟨some site.enforced, some site.reported, some site.reach⟩ := by
  have hvalues (brief : List String → Bool) (listed : DirectiveValues) :
      Takes (memberValue (readDirectiveValues (deepest - 1)))
        (':' :: writeDirectiveValuesBriefly brief listed) listed :=
    takes_memberValue (takes_readDirectiveValues 124 brief listed)
  have hreach := takes_memberValue (takes_readReach (deepest - 1) site.reach)
  have henforced (brief : List String → Bool) :
      Takes (siteMember (deepest - 1) "enforce" ⟨none, none, none⟩)
        (':' :: writeDirectiveValuesBriefly brief site.enforced) ⟨some site.enforced, none, none⟩ := by
    intro rest
    simp only [siteMember, Option.isNone_none, and_self, if_true, hvalues _ _ rest, bind, Except.bind]
  have hreported (brief : List String → Bool) :
      Takes (siteMember (deepest - 1) "report-only" ⟨some site.enforced, none, none⟩)
        (':' :: writeDirectiveValuesBriefly brief site.reported)
        ⟨some site.enforced, some site.reported, none⟩ := by
    intro rest
    simp only [siteMember, String.reduceEq, false_and, if_false, Option.isNone_none, and_self, if_true,
      hvalues _ _ rest, bind, Except.bind]
  refine .cons (henforced _) (.cons (hreported _) (.cons ?_ (.nil _)))
  intro rest
  simp only [siteMember, String.reduceEq, false_and, if_false, Option.isNone_none, and_self, if_true,
    hreach rest, bind, Except.bind]

theorem takes_readSitePolicies (brief : List String → Bool) (site : SitePolicies) :
    Takes readSitePolicies (writeObject (siteEntriesBriefly brief site)) site := by
  intro rest
  have hmembers := takes_object (gathers_site brief site) rest
  simp only [readSitePolicies, writeObject, List.cons_append,
    dropBlanks_cons (show isBlank '\x7b' = false by decide), hmembers, bind, Except.bind]
  rfl

/-! ## Amendments -/

theorem takes_readCleared (scope : String) : Takes readCleared (quote scope) (some scope) := by
  intro rest
  simp only [readCleared, dropBlanks_quote]
  split
  · next h => simp [quote_append] at h
  · simp only [takes_text_quote scope rest, bind, Except.bind]

/-- Values that are left out because there are none are found as none. -/
theorem gathers_unless_empty (write : ScopedValues → List Char) (name : String)
    (listed : ScopedValues) (members : Option ScopedValues → AmendmentMembers)
    (h : Takes (amendmentMember (deepest - 1) name (members none)) (':' :: write listed)
      (members (some listed))) :
    ∃ found : Option ScopedValues, found.getD ∅ = listed ∧
      Gathers (amendmentMember (deepest - 1)) (members none)
        (if listed.isEmpty then [] else [(name, write listed)]) (members found) := by
  split
  · next hempty =>
    obtain ⟨entries, _⟩ := listed
    obtain rfl : entries = [] := List.isEmpty_iff.1 hempty
    exact ⟨none, rfl, .nil _⟩
  · exact ⟨some listed, rfl, .cons h (.nil _)⟩

theorem gathers_cleared (cleared : Option String) :
    ∃ found : Option (Option String), found.getD none = cleared ∧
      Gathers (amendmentMember (deepest - 1)) ⟨none, none, none⟩
        (cleared.toList.map fun scope => ("clear", quote scope)) ⟨found, none, none⟩ := by
  cases cleared with
  | none => exact ⟨none, rfl, .nil _⟩
  | some scope =>
    refine ⟨some (some scope), rfl, .cons ?_ (.nil _)⟩
    intro rest
    simp only [amendmentMember, if_true, Option.isSome_none, Bool.false_eq_true, if_false,
      takes_memberValue (takes_readCleared scope) rest, bind, Except.bind]

/-- The members that are written lead to the amendments; those that are left out count as empty. -/
theorem gathers_amendments (brief : List String → Bool) (amendments : Amendments) :
    ∃ members : AmendmentMembers, members.toAmendments = amendments ∧
      Gathers (amendmentMember (deepest - 1)) ⟨none, none, none⟩
        (amendmentEntriesBriefly brief amendments) members := by
  have hvalues (brief : List String → Bool) (listed : ScopedValues) :
      Takes (memberValue (readScopedValues (deepest - 1)))
        (':' :: writeScopedValuesBriefly brief listed) listed :=
    takes_memberValue (takes_readScopedValues 123 brief listed)
  obtain ⟨cleared, removed, added⟩ := amendments
  obtain ⟨found, rfl, hfound⟩ := gathers_cleared cleared
  obtain ⟨left, rfl, hleft⟩ := gathers_unless_empty
    (writeScopedValuesBriefly fun names => brief ("removeFromPolicy" :: names)) "removeFromPolicy"
    removed (fun left => ⟨found, left, none⟩) (by
      intro rest
      simp only [amendmentMember, String.reduceEq, if_false, if_true, Option.isSome_none,
        Bool.false_eq_true, hvalues _ _ rest, bind, Except.bind])
  obtain ⟨more, rfl, hmore⟩ := gathers_unless_empty
    (writeScopedValuesBriefly fun names => brief ("addToPolicy" :: names)) "addToPolicy"
    added (fun more => ⟨found, left, more⟩) (by
      intro rest
      simp only [amendmentMember, String.reduceEq, if_false, if_true, Option.isSome_none,
        Bool.false_eq_true, hvalues _ _ rest, bind, Except.bind])
  exact ⟨⟨found, left, more⟩, rfl, (hfound.append hleft).append hmore⟩

theorem takes_readAmendments (brief : List String → Bool) (amendments : Amendments) :
    Takes readAmendments (writeObject (amendmentEntriesBriefly brief amendments)) amendments := by
  obtain ⟨members, hmembers, hgathers⟩ := gathers_amendments brief amendments
  intro rest
  have hobject := takes_object hgathers rest
  simp only [readAmendments, writeObject, List.cons_append,
    dropBlanks_cons (show isBlank '\x7b' = false by decide), hobject, hmembers, bind, Except.bind]

end Written

theorem SitePolicies.parse_renderBriefly (brief : List String → Bool) (site : SitePolicies) :
    parse (site.renderBriefly brief) = .ok site := by
  rw [parse, renderBriefly, (Written.takes_readSitePolicies brief site).readAll]
  rfl

theorem SitePolicies.parse_render (site : SitePolicies) : parse site.render = .ok site := by
  rw [← site.renderBriefly_false, parse_renderBriefly]

theorem Amendments.parse_renderBriefly (brief : List String → Bool) (amendments : Amendments) :
    parse (amendments.renderBriefly brief) = .ok amendments := by
  rw [parse, renderBriefly, (Written.takes_readAmendments brief amendments).readAll]
  rfl

/-- Amendments and the policies of a site are read back as they were written, with all entries and values in
their order. Writing any lists of one value as that value alone makes no difference. -/
theorem documents_are_read_back :
    (∀ amendments : Amendments, Amendments.parse amendments.render = .ok amendments ∧
      ∀ brief, Amendments.parse (amendments.renderBriefly brief) = .ok amendments) ∧
    ∀ site : SitePolicies, SitePolicies.parse site.render = .ok site ∧
      ∀ brief, SitePolicies.parse (site.renderBriefly brief) = .ok site := by
  constructor
  · intro amendments
    have hread := fun brief => amendments.parse_renderBriefly brief
    refine ⟨?_, hread⟩
    rw [← amendments.renderBriefly_false]
    exact hread _
  · intro site
    exact ⟨site.parse_render, fun brief => site.parse_renderBriefly brief⟩

end ContentSecurity
