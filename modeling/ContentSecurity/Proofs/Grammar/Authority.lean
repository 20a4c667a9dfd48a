import ContentSecurity.Proofs.Grammar.Alphabet

/-!
Whom a report is sent to. A client reads a report target as a reference: behind two slashes, which
begin the text or follow `http:` or `https:`, stands the authority, and what stands in it before an
at sign is login information. Behind a scheme the authority is the host with its port, so nobody
logs in there. A path is not searched for a host, and one that begins with two slashes names
whatever authority its author likes.
-/
namespace ContentSecurity

open Grammar

/-- A text divided as a reference that has an authority. -/
structure ReferenceDivision where
  schemeName : List Char
  authority : List Char
  rest : List Char

namespace ReferenceDivision

/-- What an authority goes on to, if not to the end. -/
def endMarks : List Char := "/?#".toList

structure Divides (division : ReferenceDivision) (text : List Char) : Prop where
  whole : text = division.schemeName ++ "//".toList ++ (division.authority ++ division.rest)
  schemeName : Text.fold division.schemeName ∈ [[], "http:".toList, "https:".toList]
  authority : ∀ c ∈ division.authority, c ∉ endMarks
  rest : ∀ c ∈ division.rest.head?, c ∈ endMarks

theorem takeWhile_of_endMarks {place rest : List Char} (hp : ∀ c ∈ place, c ∉ endMarks)
    (hr : ∀ c ∈ rest.head?, c ∈ endMarks) : (place ++ rest).takeWhile (· ∉ endMarks) = place :=
  takeWhile_run_append (by simpa using hp) (by simpa using hr)

/-- With a name in front, the slashes are those of a scheme. -/
theorem Divides.scheme {division : ReferenceDivision} {text : List Char}
    (h : division.Divides text) (hn : division.schemeName ≠ []) :
    ∃ found, Grammar.scheme text = some (found, division.authority ++ division.rest) := by
  have hfold (found : Scheme) (hf : Text.fold division.schemeName ++ "//".toList = found.spelling) :
      Grammar.scheme text = some (found, division.authority ++ division.rest) := by
    refine (scheme_eq_some_iff _ _ _).2 ⟨_, h.whole, ?_⟩
    rw [Text.fold_append, ← hf]
    rfl
  have hname := h.schemeName
  simp only [List.mem_cons, List.not_mem_nil, or_false] at hname
  obtain hname | hname | hname := hname
  · exact absurd (List.map_eq_nil_iff.1 hname) hn
  · exact ⟨.http, hfold .http (by rw [hname]; rfl)⟩
  · exact ⟨.https, hfold .https (by rw [hname]; rfl)⟩

/-- Behind a scheme the authority is the host with its port. -/
theorem Divides.authority_eq {division : ReferenceDivision} {target : TargetDivision}
    {text : List Char} (h : division.Divides text) (ht : target.Divides text) :
    division.authority = target.host ++ portText target.port := by
  have hn : division.schemeName ≠ [] := by
    intro hn
    refine ht.head ?_
    rw [h.whole, hn]
    rfl
  obtain ⟨found, hs⟩ := h.scheme hn
  have hsplit : division.authority ++ division.rest =
      target.host ++ portText target.port ++ target.path := by
    have hread := ifThere_scheme_append ht.scheme ht.host (portText target.port ++ target.path)
    have hwhole : text = target.schemeText ++
        (markText false ++ target.host ++ (portText target.port ++ target.path)) := ht.whole
    rw [← hwhole, Rule.ifThere, hs] at hread
    rw [List.append_assoc]
    exact congrArg Prod.snd hread
  have hplace : ∀ c ∈ target.host ++ portText target.port, c ∉ endMarks := by
    intro c hc hm
    have hchar : isPlaceChar c = true := by
      obtain hc | hc := List.mem_append.1 hc
      · exact ht.host.placeChars c hc
      · exact ht.port.placeChars c hc
    have marks : endMarks.all (!isPlaceChar ·) = true := by decide
    simpa [hchar] using List.all_eq_true.1 marks c hm
  have hpath : ∀ c ∈ target.path.head?, c ∈ endMarks := by
    intro c hc
    rw [head_of_isPath ht.path c hc]
    decide
  rw [← takeWhile_of_endMarks h.authority h.rest, hsplit, takeWhile_of_endMarks hplace hpath]

end ReferenceDivision

/-- Nothing stands in front of the slashes with which a text begins. -/
theorem ReferenceDivision.Divides.schemeName_of_head {division : ReferenceDivision}
    {text : List Char} (h : division.Divides text) (hs : text.head? = some '/') :
    division.schemeName = [] := by
  by_contra hn
  obtain ⟨found, hread⟩ := h.scheme hn
  obtain ⟨front, rfl, hfront⟩ := (scheme_eq_some_iff _ _ _).1 hread
  have hscheme : IsScheme (some found) front := hfront
  exact absurd (hscheme.head _ '/' hs) (by decide)

/-- Behind a scheme nobody logs in. -/
theorem TargetDivision.Divides.login_not_mem {target : TargetDivision} {text : List Char}
    (h : target.Divides text) : '@' ∉ target.host ++ portText target.port := by
  intro hm
  have hchar : isPlaceChar '@' = true := by
    obtain hm | hm := List.mem_append.1 hm
    · exact h.host.placeChars '@' hm
    · exact h.port.placeChars '@' hm
  exact absurd hchar (by decide)

/-- A report target gives login information just where it begins with two slashes and an at sign
comes before any end mark behind them. So one with a scheme never does, nor one that begins with its
host or with a single slash. -/
theorem login_in_report_target (value : String) (h : isReportTarget value = true) :
    (∃ division : ReferenceDivision, division.Divides value.toList ∧ '@' ∈ division.authority) ↔
      ∃ login rest, value.toList = "//".toList ++ (login ++ '@' :: rest) ∧
        ∀ c ∈ login, c ∉ ReferenceDivision.endMarks := by
  constructor
  · rintro ⟨division, hd, hm⟩
    obtain ⟨run, hslash, -⟩ | ⟨target, ht⟩ := (report_targets_are_divided value).1 h
    · have hname : division.schemeName = [] := hd.schemeName_of_head (by rw [hslash]; rfl)
      obtain ⟨login, behind, ha⟩ := List.append_of_mem hm
      refine ⟨login, behind ++ division.rest, ?_, ?_⟩
      · rw [hd.whole, hname, ha]
        simp
      · intro c hc
        exact hd.authority c (by rw [ha]; exact List.mem_append_left _ hc)
    · rw [hd.authority_eq ht] at hm
      exact absurd hm ht.login_not_mem
  · rintro ⟨login, rest, hv, hl⟩
    -- The authority goes on behind the at sign.
    let more := rest.takeWhile (· ∉ ReferenceDivision.endMarks)
    let behind := rest.dropWhile (· ∉ ReferenceDivision.endMarks)
    refine ⟨⟨[], login ++ '@' :: more, behind⟩, ⟨?_, ?_, ?_, ?_⟩, by simp⟩
    · simp [hv, more, behind]
    · simp
    · intro c hc
      obtain hc | hc := List.mem_append.1 hc
      · exact hl c hc
      · obtain rfl | hc := List.mem_cons.1 hc
        · decide
        · simpa using List.mem_takeWhile_imp hc
    · intro c hc
      have hend := List.head?_dropWhile_not (· ∉ ReferenceDivision.endMarks) rest
      rw [show rest.dropWhile (· ∉ ReferenceDivision.endMarks) = behind from rfl, hc] at hend
      simpa using hend

/-- The at sign of the path is no login. -/
theorem login_in_report_target_with_scheme :
    isReportTarget "https://example.com:8443//@me" = true ∧
      ¬ ∃ division : ReferenceDivision,
        division.Divides "https://example.com:8443//@me".toList ∧ '@' ∈ division.authority := by
  have h : isReportTarget "https://example.com:8443//@me" = true := by decide
  refine ⟨h, fun hlogin => ?_⟩
  obtain ⟨login, rest, hv, -⟩ := (login_in_report_target _ h).1 hlogin
  have hletter : some 'h' = some '/' := congrArg List.head? hv
  exact absurd hletter (by decide)

/-- Two slashes, a name, a password and a host are taken for a path. -/
theorem report_target_gives_login :
    isReportTarget "//user:pass@example.com/report" = true ∧
      ∃ division : ReferenceDivision, division.Divides "//user:pass@example.com/report".toList ∧
        division.authority = "user:pass@example.com".toList ∧ '@' ∈ division.authority := by
  have hplace : "user:pass@example.com".toList.all (· ∉ ReferenceDivision.endMarks) = true := by
    decide
  refine ⟨by decide, ⟨[], "user:pass@example.com".toList, "/report".toList⟩, ?_, rfl, by decide⟩
  refine ⟨rfl, by decide, by simpa using hplace, ?_⟩
  rintro _ ⟨⟩
  decide

end ContentSecurity
