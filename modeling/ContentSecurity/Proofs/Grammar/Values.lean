import ContentSecurity.Proofs.Grammar.Language

/-!
The values of directives are those of the documented grammar. The rules never go back, and need not:
no host begins with a scheme, nothing that follows a host can belong to it, and a path begins with
what neither a port nor a host has in front. So a value is divided in one way at most, and in that
way it is read.
-/
namespace ContentSecurity

namespace Grammar

theorem IsHost.head {any : Bool} {name : List Char} (h : IsHost any name) (rest : List Char) :
    ∀ c ∈ (markText any ++ name ++ rest).head?, isDomainChar c = true ∨ c ∈ "%[*".toList := by
  cases h with
  | address _ h =>
    obtain ⟨inner, -, rfl⟩ := h
    rintro _ ⟨⟩
    exact Or.inr (by decide)
  | anySubdomain =>
    rintro _ ⟨⟩
    exact Or.inr (by decide)
  | name _ h =>
    intro c hc
    obtain hc | rfl := h.head rest c hc
    · exact Or.inl ((isDomainChar_iff c).2 hc)
    · exact Or.inr (by decide)

/-- No colon stands in a domain, whatever is done to the case of its letters. -/
theorem IsDomain.colon_not_mem {name : List Char} (h : IsDomain name) : ':' ∉ Text.fold name := by
  intro hm
  obtain ⟨c, hc, hlower⟩ := List.mem_map.1 hm
  obtain he | ⟨-, hletter⟩ := toLower_eq_or_isAlphanum c
  · rw [he] at hlower
    subst hlower
    have hchar := h.encoded.mem hc
    rw [← isDomainChar_iff] at hchar
    exact absurd hchar (by decide)
  · rw [hlower] at hletter
    exact absurd hletter (by decide)

/-- No host begins with a scheme. -/
theorem IsHost.scheme_eq_none {any : Bool} {name : List Char} (h : IsHost any name)
    (rest : List Char) : scheme (markText any ++ name ++ rest) = none := by
  rw [Option.eq_none_iff_forall_ne_some]
  rintro ⟨found, more⟩ hs
  obtain ⟨front, hsplit, hfold⟩ := (scheme_eq_some_iff _ _ _).1 hs
  have hfolded := congrArg Text.fold hsplit
  rw [Text.fold_append, Text.fold_append front, hfold] at hfolded
  have hhead := congrArg List.head? hfolded
  cases h with
  | address _ h =>
    obtain ⟨inner, -, rfl⟩ := h
    have hletter : some '[' = some 'h' := by cases found <;> exact hhead
    exact absurd hletter (by decide)
  | anySubdomain =>
    have hletter : some '*' = some 'h' := by cases found <;> exact hhead
    exact absurd hletter (by decide)
  | name _ h hn =>
    have hcolon : ':' ∈ found.spelling := by cases found <;> decide
    have hdot : '.' ∉ found.spelling := by cases found <;> decide
    obtain ⟨tail, htail, -⟩ | ⟨tail, htail, -⟩ := List.append_eq_append_iff.1 hfolded
    · -- The name ends within the scheme.
      change found.spelling = Text.fold name ++ tail at htail
      obtain hn | hn := hn
      · have hmem : '.' ∈ Text.fold name := List.mem_map_of_mem (f := Char.toLower) hn
        exact hdot (by rw [htail]; exact List.mem_append_left _ hmem)
      · rw [hn] at htail
        have hletter : some 'h' = some 'l' := by cases found <;> exact congrArg List.head? htail
        exact absurd hletter (by decide)
    · -- The scheme ends within the name, and with it the colon.
      change Text.fold name = found.spelling ++ tail at htail
      exact h.colon_not_mem (by rw [htail]; exact List.mem_append_left _ hcolon)

theorem isScheme_of_ifThere {input rest : List Char} {found : Option Scheme}
    (h : scheme.ifThere input = (found, rest)) :
    ∃ front, input = front ++ rest ∧ IsScheme found front := by
  unfold Rule.ifThere at h
  split at h
  · next hs =>
    cases h
    exact (scheme_eq_some_iff _ _ _).1 hs
  · cases h
    exact ⟨[], rfl, rfl⟩

/-- In front of a host a scheme is found or found missing. -/
theorem ifThere_scheme_append {found : Option Scheme} {front : List Char}
    (hs : IsScheme found front) {any : Bool} {name : List Char} (hh : IsHost any name)
    (rest : List Char) :
    scheme.ifThere (front ++ (markText any ++ name ++ rest)) =
      (found, markText any ++ name ++ rest) := by
  cases found with
  | none =>
    obtain rfl : front = [] := hs
    simp only [Rule.ifThere, List.nil_append, hh.scheme_eq_none rest]
  | some found =>
    simp only [Rule.ifThere, (scheme_eq_some_iff _ _ _).2 ⟨front, rfl, hs⟩]

theorem IsScheme.head {found : Scheme} {front : List Char} (h : IsScheme (some found) front)
    (rest : List Char) : ∀ c ∈ (front ++ rest).head?, c.toLower = 'h' := by
  have hfold : Text.fold front = found.spelling := h
  cases front with
  | nil => cases found <;> exact absurd hfold (by decide)
  | cons c tail =>
    rintro _ ⟨⟩
    cases found <;> exact (List.cons.inj hfold).1

/-- A path, or nothing, begins with a slash at most. -/
theorem head_of_isPath {path : List Char} (h : path = [] ∨ IsPath path) :
    ∀ c ∈ path.head?, c = '/' := by
  obtain rfl | ⟨run, rfl, -⟩ := h
  · nofun
  · rintro _ ⟨⟩
    rfl

/-- Neither a port nor a path begins with what can belong to a domain. -/
theorem endsDomain_portText (port : Option (List Char)) {path : List Char}
    (h : path = [] ∨ IsPath path) : EndsDomain (portText port ++ path) := by
  intro c hc
  rw [← isDomainChar_iff]
  cases port with
  | none =>
    obtain rfl := head_of_isPath h c hc
    decide
  | some digits =>
    obtain rfl : ':' = c := Option.some.inj hc
    decide

end Grammar

open Grammar

/-! ## Host patterns -/

/-- A text divided into the parts of a host pattern: the scheme, also as it was written, the mark for
any subdomain, the host and the digits of the port. -/
structure HostDivision where
  scheme : Option Grammar.Scheme
  schemeText : List Char
  anySubdomain : Bool
  host : List Char
  port : Option (List Char)

namespace HostDivision

/-- Put together again, the parts are the text, and each is what it should be. -/
structure Divides (division : HostDivision) (text : List Char) : Prop where
  whole : text = division.schemeText ++
    (markText division.anySubdomain ++ division.host ++ portText division.port)
  scheme : IsScheme division.scheme division.schemeText
  host : IsHost division.anySubdomain division.host
  port : IsPort division.port

def pattern (division : HostDivision) : HostPattern :=
  ⟨division.scheme, division.anySubdomain, String.ofList division.host,
    division.port.map String.ofList⟩

/-- What is read comes from a division. -/
theorem exists_divides_of_parse? {value : String} {pattern : HostPattern}
    (h : HostPattern.parse? value = some pattern) :
    ∃ division : HostDivision, division.Divides value.toList ∧ division.pattern = pattern := by
  unfold HostPattern.parse? at h
  cases hs : Grammar.scheme.ifThere value.toList with
  | mk scheme rest =>
    obtain ⟨front, hfront, hscheme⟩ := isScheme_of_ifThere hs
    simp only [hs] at h
    split at h
    · next any host rest' hh =>
      obtain ⟨hrest, hhost, -⟩ := isHost_of_host hh
      split at h
      · next port hp =>
        obtain ⟨hport, hdigits⟩ := isPort_of_ifThere hp
        cases h
        refine ⟨⟨scheme, front, any, host, port⟩, ⟨?_, hscheme, hhost, hdigits⟩, rfl⟩
        rw [hfront, hrest, hport, List.append_nil]
      · cases h
    · cases h

/-- A text that is divided is read. -/
theorem Divides.parse? {division : HostDivision} {value : String}
    (h : division.Divides value.toList) : HostPattern.parse? value = some division.pattern := by
  have hs := ifThere_scheme_append h.scheme h.host (portText division.port)
  have hends := endsDomain_portText division.port (Or.inl rfl)
  rw [List.append_nil] at hends
  have hh := host_append true h.host (fun _ => rfl) hends
  have hp := ifThere_port_append h.port [] nofun
  rw [List.append_nil] at hp
  simp only [HostPattern.parse?, h.whole, hs, hh, hp, pattern]

/-- A text is divided in one way at most. -/
theorem Divides.eq {division other : HostDivision} {value : String}
    (h : division.Divides value.toList) (ho : other.Divides value.toList) : division = other := by
  have hpattern : division.pattern = other.pattern := Option.some.inj (h.parse?.symm.trans ho.parse?)
  have hwhole := h.whole.symm.trans ho.whole
  obtain ⟨scheme, text, any, host, port⟩ := division
  obtain ⟨scheme', text', any', host', port'⟩ := other
  simp only [pattern, HostPattern.mk.injEq] at hpattern
  obtain ⟨rfl, rfl, hhost, hport⟩ := hpattern
  obtain rfl := String.ofList_injective hhost
  obtain rfl := Option.map_injective (fun _ _ => String.ofList_injective) hport
  obtain rfl := List.append_cancel_right hwhole
  rfl

end HostDivision

/-- A value is read as a host pattern when it can be divided into the parts of one. The parts are
those that are read, and there is no other way to divide it. A source is the star, `data:` or a host
pattern. -/
theorem host_patterns_are_divided (value : String) :
    (∀ pattern, HostPattern.parse? value = some pattern ↔
      ∃ division : HostDivision, division.Divides value.toList ∧ division.pattern = pattern) ∧
    (∀ division other : HostDivision, division.Divides value.toList →
      other.Divides value.toList → division = other) ∧
    (isSource value = true ↔ value = "*" ∨ Text.fold value.toList = "data:".toList ∨
      ∃ division : HostDivision, division.Divides value.toList) := by
  have hparse (pattern : HostPattern) : HostPattern.parse? value = some pattern ↔
      ∃ division : HostDivision, division.Divides value.toList ∧ division.pattern = pattern := by
    constructor
    · exact HostDivision.exists_divides_of_parse?
    · rintro ⟨division, h, rfl⟩
      exact h.parse?
  refine ⟨hparse, fun division other h ho => h.eq ho, ?_⟩
  have hdata : isDataMark value = true ↔ Text.fold value.toList = "data:".toList := beq_iff_eq
  have hpattern : (HostPattern.parse? value).isSome = true ↔
      ∃ division : HostDivision, division.Divides value.toList := by
    simp only [Option.isSome_iff_exists, hparse]
    exact ⟨fun ⟨_, division, h, _⟩ => ⟨division, h⟩, fun ⟨division, h⟩ => ⟨_, division, h, rfl⟩⟩
  rw [isSource, Bool.or_eq_true, Bool.or_eq_true, hdata, hpattern, isStar, beq_iff_eq, or_assoc]

/-- A pattern with all its parts is divided in this way and no other. -/
theorem host_patterns_are_divided_with_port :
    ∃ division : HostDivision, division.Divides "HTTPS://*.example.com:8443".toList ∧
      division.pattern = ⟨some .https, true, "example.com", some "8443"⟩ ∧
      ∀ other : HostDivision, other.Divides "HTTPS://*.example.com:8443".toList →
        other = division := by
  obtain ⟨hread, hunique, -⟩ := host_patterns_are_divided "HTTPS://*.example.com:8443"
  obtain ⟨division, hd, hp⟩ := (hread ⟨some .https, true, "example.com", some "8443"⟩).1 (by decide)
  exact ⟨division, hd, hp, fun other ho => hunique other division ho hd⟩

/-! ## Report targets -/

/-- A text divided into the parts of a report target that begins with its host. -/
structure TargetDivision where
  scheme : Option Grammar.Scheme
  schemeText : List Char
  host : List Char
  port : Option (List Char)
  path : List Char

namespace TargetDivision

structure Divides (division : TargetDivision) (text : List Char) : Prop where
  whole : text = division.schemeText ++
    (division.host ++ (portText division.port ++ division.path))
  scheme : IsScheme division.scheme division.schemeText
  host : IsHost false division.host
  port : IsPort division.port
  path : division.path = [] ∨ IsPath division.path

/-- Such a target does not begin with a slash. -/
theorem Divides.head {division : TargetDivision} {text : List Char} (h : division.Divides text) :
    text.head? ≠ some '/' := by
  obtain ⟨scheme, front, host, port, path⟩ := division
  rw [h.whole]
  intro hslash
  cases scheme with
  | none =>
    obtain rfl : front = [] := h.scheme
    exact absurd (h.host.head _ '/' hslash) (by decide)
  | some scheme => exact absurd (h.scheme.head _ '/' hslash) (by decide)

theorem Divides.isReportTarget {division : TargetDivision} {value : String}
    (h : division.Divides value.toList) : isReportTarget value = true := by
  obtain ⟨scheme, front, host, port, path⟩ := division
  have hs := ifThere_scheme_append h.scheme h.host (portText port ++ path)
  have hh := host_append false h.host nofun (endsDomain_portText port h.path)
  have hp := ifThere_port_append h.port path fun c hc => by
    obtain rfl := head_of_isPath h.path c hc
    decide
  unfold ContentSecurity.isReportTarget
  split
  · next rest hslash =>
    exact absurd (by rw [hslash]; rfl) h.head
  · have hshape : front ++ (markText false ++ host ++ (portText port ++ path)) = value.toList :=
      h.whole.symm
    rw [hshape] at hs
    simp only [hs, hh, hp]
    obtain rfl | hpath := h.path
    · rfl
    · have htakes := (takesAll_path_iff path).2 hpath
      split
      · rfl
      · next hpair =>
        cases hpair
        exact htakes

end TargetDivision

theorem exists_divides_of_isReportTarget {value : String} (h : isReportTarget value = true) :
    IsPath value.toList ∨ ∃ division : TargetDivision, division.Divides value.toList := by
  unfold isReportTarget at h
  split at h
  · next rest hslash =>
    rw [hslash]
    exact Or.inl ((takesAll_path_iff _).1 h)
  · cases hs : Grammar.scheme.ifThere value.toList with
    | mk scheme rest =>
      obtain ⟨front, hfront, hscheme⟩ := isScheme_of_ifThere hs
      simp only [hs] at h
      split at h
      · next found rest' hh =>
        obtain ⟨any, host⟩ := found
        obtain ⟨hrest, hhost, hany⟩ := isHost_of_host hh
        obtain rfl : any = false := Bool.eq_false_iff.2 fun ht => absurd (hany ht) (by decide)
        cases hp : Grammar.port.ifThere rest' with
        | mk port path =>
          obtain ⟨hport, hdigits⟩ := isPort_of_ifThere hp
          have hpath : path = [] ∨ IsPath path := by
            simp only [hp] at h
            split at h
            · next hpair =>
              exact Or.inl (congrArg Prod.snd hpair)
            · next hpair =>
              cases hpair
              exact Or.inr ((takesAll_path_iff path).1 h)
          right
          refine ⟨⟨scheme, front, host, port, path⟩, ⟨?_, hscheme, hhost, hdigits, hpath⟩⟩
          rw [hfront, hrest, hport]
          rfl
      · cases h

/-- A value is a report target when it is a path, or can be divided into the parts of a target: a
host without the mark for any subdomain, a scheme in front of it or not, a port and a path behind it
or not. -/
theorem report_targets_are_divided (value : String) :
    isReportTarget value = true ↔
      IsPath value.toList ∨ ∃ division : TargetDivision, division.Divides value.toList := by
  constructor
  · exact exists_divides_of_isReportTarget
  · rintro (⟨run, he, hrun⟩ | ⟨division, h⟩)
    · simp only [isReportTarget, he]
      exact (takesAll_path_iff _).2 ⟨run, rfl, hrun⟩
    · exact h.isReportTarget

end ContentSecurity
