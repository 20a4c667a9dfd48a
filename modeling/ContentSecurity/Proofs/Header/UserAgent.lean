import ContentSecurity.Header.Dialect
import ContentSecurity.Proofs.Runs
import Mathlib.Data.Nat.Digits.Defs

/-!
The dialect of a user agent, told from its text alone. A token is a browser's name with its version;
the one that begins first decides, by the number that its digits write, however long it is. What
stands around that token counts for nothing.
-/
namespace ContentSecurity

/-- What stands in front of a browser's version. -/
def Browser.mark : Browser → String
  | firefox => "Firefox/"
  | chrome => "Chrome/"
  | safari => "Safari/"
  | explorer => "MSIE "

/-- Where one browser is named, no other is. -/
theorem Browser.eq_of_mark_append {browser other : Browser} {rest rest' : List Char}
    (h : browser.mark.toList ++ rest = other.mark.toList ++ rest') : browser = other := by
  have hhead (browser : Browser) (rest : List Char) :
      (browser.mark.toList ++ rest).head? = browser.mark.toList.head? := by cases browser <;> rfl
  have hletter : browser.mark.toList.head? = other.mark.toList.head? := by
    rw [← hhead browser rest, h, hhead]
  cases browser <;> cases other <;> first | rfl | exact absurd hletter (by decide)

namespace BrowserToken

/-- The text starts with the token. A version has at least one digit and goes on as long as there are
digits; behind `MSIE` it is a 1 with one digit more, whatever follows. -/
inductive Leads : BrowserToken → List Char → Prop where
  | run (browser : Browser) (digits rest : List Char) (hb : browser ≠ .explorer) (hne : digits ≠ [])
      (hd : ∀ c ∈ digits, Text.isDecimalDigit c = true)
      (hr : ∀ c ∈ rest.head?, Text.isDecimalDigit c = false) :
      Leads ⟨browser, digits⟩ (browser.mark.toList ++ (digits ++ rest))
  | pair (digit : Char) (rest : List Char) (hd : Text.isDecimalDigit digit = true) :
      Leads ⟨.explorer, ['1', digit]⟩ (Browser.explorer.mark.toList ++ '1' :: digit :: rest)

/-- The token stands in the text with so much before it. -/
def StandsBehind (token : BrowserToken) (before text : List Char) : Prop :=
  ∃ rest, text = before ++ rest ∧ token.Leads rest

/-- The token stands in the text, and no token begins before it. -/
def IsFirst (token : BrowserToken) (text : List Char) : Prop :=
  ∃ before, token.StandsBehind before text ∧
    ∀ (other : BrowserToken) (earlier : List Char), other.StandsBehind earlier text →
      before.length ≤ earlier.length

/-- The number that digits write, of any length. -/
def number (digits : List Char) : Nat :=
  Nat.ofDigits 10 (digits.reverse.map fun digit => digit.toNat - '0'.toNat)

end BrowserToken

/-- The dialect that a version of a browser knows. -/
def Browser.dialect (version : Nat) : Browser → HeaderDialect
  | firefox => if 4 ≤ version ∧ version ≤ 22 then .mozilla else .standard
  | chrome => if 14 ≤ version ∧ version ≤ 24 then .webKit else .standard
  | safari => if 6 ≤ version then .webKit else .standard
  | explorer => if 10 ≤ version ∧ version ≤ 19 then .mozilla else .standard

/-- The dialect that a token stands for. Digits of other scripts write no number; they pass for a
version beyond all others. -/
def BrowserToken.dialect (token : BrowserToken) : HeaderDialect :=
  if token.digits.all Char.isDigit then token.browser.dialect (number token.digits)
  else if token.browser = .safari then .webKit
  else .standard

namespace BrowserToken

/-! ## The token at the front -/

theorem named?_eq_some_iff (browser : Browser) (name : String) (text : List Char)
    (token : BrowserToken) :
    named? browser name text = some token ↔
      ∃ digits rest, text = name.toList ++ (digits ++ rest) ∧ digits ≠ [] ∧
        (∀ c ∈ digits, Text.isDecimalDigit c = true) ∧
        (∀ c ∈ rest.head?, Text.isDecimalDigit c = false) ∧ token = ⟨browser, digits⟩ := by
  unfold named?
  constructor
  · intro h
    split at h
    · cases h
    · next rest hafter =>
      rw [Text.after?_eq_some_iff] at hafter
      split at h
      · cases h
      · next hne =>
        cases h
        refine ⟨rest.takeWhile Text.isDecimalDigit, rest.dropWhile Text.isDecimalDigit, ?_, hne,
          fun c hc => List.mem_takeWhile_imp hc, head?_dropWhile_run _ rest, rfl⟩
        rw [hafter, List.takeWhile_append_dropWhile]
  · rintro ⟨digits, rest, rfl, hne, hd, hr, rfl⟩
    have hafter : Text.after? name.toList (name.toList ++ (digits ++ rest)) =
        some (digits ++ rest) := Text.after?_eq_some_iff.2 rfl
    rw [hafter]
    dsimp only
    rw [takeWhile_run_append hd hr]
    cases digits with
    | nil => exact absurd rfl hne
    | cons digit digits => rfl

theorem explorer?_eq_some_iff (text : List Char) (token : BrowserToken) :
    explorer? text = some token ↔
      ∃ digit rest, text = Browser.explorer.mark.toList ++ '1' :: digit :: rest ∧
        Text.isDecimalDigit digit = true ∧ token = ⟨.explorer, ['1', digit]⟩ := by
  unfold explorer?
  constructor
  · intro h
    split at h
    · next digit rest hafter =>
      rw [Text.after?_eq_some_iff] at hafter
      split at h
      · next hd =>
        cases h
        exact ⟨digit, rest, hafter, hd, rfl⟩
      · cases h
    · cases h
  · rintro ⟨digit, rest, rfl, hd, rfl⟩
    have hafter : Text.after? "MSIE 1".toList
        (Browser.explorer.mark.toList ++ '1' :: digit :: rest) = some (digit :: rest) :=
      Text.after?_eq_some_iff.2 rfl
    simp only [hafter, hd, if_true]

/-- Behind another mark there is no such name. -/
theorem named?_of_ne {browser other : Browser} (h : browser ≠ other) (rest : List Char) :
    named? browser browser.mark (other.mark.toList ++ rest) = none := by
  cases hn : named? browser browser.mark (other.mark.toList ++ rest) with
  | none => rfl
  | some token =>
    obtain ⟨digits, rest', ht, -⟩ := (named?_eq_some_iff _ _ _ _).1 hn
    exact absurd (Browser.eq_of_mark_append ht).symm h

theorem atFront?_eq (text : List Char) :
    atFront? text = ((named? .firefox Browser.firefox.mark text).or
      ((named? .chrome Browser.chrome.mark text).or
        ((named? .safari Browser.safari.mark text).or (explorer? text)))) := by
  unfold atFront? Browser.mark
  cases named? .firefox "Firefox/" text with
  | some => rfl
  | none =>
    cases named? .chrome "Chrome/" text with
    | some => rfl
    | none => cases named? .safari "Safari/" text <;> rfl

/-- The names are looked for one after the other, and only one of them can be there. -/
theorem atFront?_eq_some_iff (text : List Char) (token : BrowserToken) :
    atFront? text = some token ↔ token.Leads text := by
  rw [atFront?_eq]
  constructor
  · intro h
    have hrun (browser : Browser) (hb : browser ≠ .explorer)
        (hn : named? browser browser.mark text = some token) : token.Leads text := by
      obtain ⟨digits, rest, rfl, hne, hd, hr, rfl⟩ := (named?_eq_some_iff _ _ _ _).1 hn
      exact .run browser digits rest hb hne hd hr
    simp only [Option.or_eq_some_iff] at h
    obtain hn | ⟨-, hn | ⟨-, hn | ⟨-, hn⟩⟩⟩ := h
    · exact hrun .firefox (by decide) hn
    · exact hrun .chrome (by decide) hn
    · exact hrun .safari (by decide) hn
    · obtain ⟨digit, rest, rfl, hd, rfl⟩ := (explorer?_eq_some_iff _ _).1 hn
      exact .pair digit rest hd
  · intro h
    cases h with
    | run browser digits rest hb hne hd hr =>
      have hn := (named?_eq_some_iff browser browser.mark _ _).2
        ⟨digits, rest, rfl, hne, hd, hr, rfl⟩
      have hno := fun (other : Browser) (ho : other ≠ browser) => named?_of_ne ho (digits ++ rest)
      cases browser with
      | firefox => rw [hn, Option.some_or]
      | chrome => rw [hno .firefox (by decide), hn, Option.none_or, Option.some_or]
      | safari =>
        rw [hno .firefox (by decide), hno .chrome (by decide), hn]
        rfl
      | explorer => exact absurd rfl hb
    | pair digit rest hd =>
      have hno := fun (other : Browser) (ho : other ≠ .explorer) =>
        named?_of_ne ho ('1' :: digit :: rest)
      rw [hno .firefox (by decide), hno .chrome (by decide), hno .safari (by decide),
        (explorer?_eq_some_iff _ _).2 ⟨digit, rest, rfl, hd, rfl⟩]
      rfl

/-! ## The first token -/

theorem standsBehind_nil_iff (token : BrowserToken) (text : List Char) :
    token.StandsBehind [] text ↔ token.Leads text := by
  constructor
  · rintro ⟨rest, rfl, h⟩
    exact h
  · intro h
    exact ⟨text, rfl, h⟩

theorem standsBehind_cons_iff (token : BrowserToken) (c c' : Char) (before text : List Char) :
    token.StandsBehind (c :: before) (c' :: text) ↔ c = c' ∧ token.StandsBehind before text := by
  constructor
  · rintro ⟨rest, ht, h⟩
    obtain ⟨rfl, rfl⟩ := List.cons.inj ht
    exact ⟨rfl, rest, rfl, h⟩
  · rintro ⟨rfl, rest, rfl, h⟩
    exact ⟨rest, rfl, h⟩

theorem not_leads_nil (token : BrowserToken) : ¬ token.Leads [] := by
  rw [← atFront?_eq_some_iff]
  exact nofun

theorem not_standsBehind_nil (token : BrowserToken) (before : List Char) :
    ¬ token.StandsBehind before [] := by
  rintro ⟨rest, ht, h⟩
  obtain ⟨-, rfl⟩ := List.append_eq_nil_iff.1 ht.symm
  exact token.not_leads_nil h

/-- A token at the front begins before all others. -/
theorem isFirst_iff_of_leads {front : BrowserToken} {text : List Char} (hf : front.Leads text)
    (token : BrowserToken) : token.IsFirst text ↔ token = front := by
  constructor
  · rintro ⟨before, hb, hleast⟩
    have hzero := hleast front [] ((standsBehind_nil_iff _ _).2 hf)
    obtain rfl := List.eq_nil_of_length_eq_zero (Nat.le_zero.1 hzero)
    rw [standsBehind_nil_iff, ← atFront?_eq_some_iff] at hb
    rw [← atFront?_eq_some_iff, hb] at hf
    exact Option.some.inj hf
  · rintro rfl
    exact ⟨[], (standsBehind_nil_iff _ _).2 hf, fun _ _ _ => Nat.zero_le _⟩

/-- Where no token is at the front, the first one is that of the text behind. -/
theorem isFirst_cons_iff {c : Char} {text : List Char}
    (hf : ∀ token : BrowserToken, ¬ token.Leads (c :: text)) (token : BrowserToken) :
    token.IsFirst (c :: text) ↔ token.IsFirst text := by
  constructor
  · rintro ⟨before, hb, hleast⟩
    cases before with
    | nil => exact absurd ((standsBehind_nil_iff _ _).1 hb) (hf token)
    | cons d before =>
      refine ⟨before, ((standsBehind_cons_iff _ _ _ _ _).1 hb).2, fun other earlier ho => ?_⟩
      have hle := hleast other (c :: earlier) ((standsBehind_cons_iff _ _ _ _ _).2 ⟨rfl, ho⟩)
      simpa using hle
  · rintro ⟨before, hb, hleast⟩
    refine ⟨c :: before, (standsBehind_cons_iff _ _ _ _ _).2 ⟨rfl, hb⟩, fun other earlier ho => ?_⟩
    cases earlier with
    | nil => exact absurd ((standsBehind_nil_iff _ _).1 ho) (hf other)
    | cons d earlier =>
      have hle := hleast other earlier ((standsBehind_cons_iff _ _ _ _ _).1 ho).2
      simpa using hle

theorem first?_eq_some_iff (token : BrowserToken) (text : List Char) :
    first? text = some token ↔ token.IsFirst text := by
  induction text with
  | nil =>
    refine iff_of_false nofun ?_
    rintro ⟨before, hb, -⟩
    exact token.not_standsBehind_nil before hb
  | cons c text ih =>
    rw [first?]
    cases hf : atFront? (c :: text) with
    | some front =>
      rw [isFirst_iff_of_leads ((atFront?_eq_some_iff _ _).1 hf)]
      exact ⟨fun h => (Option.some.inj h).symm, fun h => congrArg some h.symm⟩
    | none =>
      have hno : ∀ token : BrowserToken, ¬ token.Leads (c :: text) := by
        intro token ht
        rw [← atFront?_eq_some_iff, hf] at ht
        cases ht
      rw [isFirst_cons_iff hno]
      exact ih

/-- No token is found when none stands anywhere. -/
theorem first?_eq_none_iff (text : List Char) :
    first? text = none ↔
      ∀ (token : BrowserToken) (before : List Char), ¬ token.StandsBehind before text := by
  induction text with
  | nil => exact iff_of_true rfl fun token before => token.not_standsBehind_nil before
  | cons c text ih =>
    rw [first?]
    cases hf : atFront? (c :: text) with
    | some front =>
      refine iff_of_false nofun fun hno => hno front [] ?_
      exact (standsBehind_nil_iff _ _).2 ((atFront?_eq_some_iff _ _).1 hf)
    | none =>
      refine ih.trans ⟨fun hno token before hb => ?_, fun hno token before hb => ?_⟩
      · cases before with
        | nil =>
          rw [standsBehind_nil_iff, ← atFront?_eq_some_iff, hf] at hb
          cases hb
        | cons d before => exact hno token before ((standsBehind_cons_iff _ _ _ _ _).1 hb).2
      · exact hno token (c :: before) ((standsBehind_cons_iff _ _ _ _ _).2 ⟨rfl, hb⟩)

/-! ## Its version -/

theorem decimalValue_eq_number (digits : List Char) : decimalValue digits = number digits := by
  rw [number, Nat.ofDigits_eq_foldr, List.map_reverse, List.foldr_reverse, List.foldl_map,
    decimalValue]
  simp [Nat.add_comm]

theorem version_le_largestVersion (token : BrowserToken) : token.version ≤ largestVersion := by
  unfold version
  split
  · exact Nat.min_le_right _ _
  · exact Nat.le_refl _

end BrowserToken

namespace Browser

/-- All versions from the largest of 64 bits on are alike, so it does no harm to keep no larger one. -/
theorem dialect_min_largestVersion (browser : Browser) (version : Nat) :
    browser.dialect (min version BrowserToken.largestVersion) = browser.dialect version := by
  have hlargest : BrowserToken.largestVersion = 18446744073709551615 := rfl
  cases browser with
  | safari =>
    have hiff : 6 ≤ min version BrowserToken.largestVersion ↔ 6 ≤ version := by omega
    simp only [dialect, hiff]
  | _ =>
    simp only [dialect]
    refine if_congr ?_ rfl rfl
    omega

theorem dialect_largestVersion (browser : Browser) :
    browser.dialect BrowserToken.largestVersion =
      if browser = .safari then .webKit else .standard := by
  cases browser <;> rfl

end Browser

namespace HeaderDialect

/-- A version is covered by no range but that of its browser. -/
theorem ofToken_eq_dialect_version (token : BrowserToken) :
    ofToken token = token.browser.dialect token.version := by
  have hle := token.version_le_largestVersion
  cases hb : token.browser with
  | firefox =>
    by_cases hv : 4 ≤ token.version ∧ token.version ≤ 22 <;>
      simp [ofToken, versionRanges, VersionRange.covers, Browser.dialect, hb, hv]
  | chrome =>
    by_cases hv : 14 ≤ token.version ∧ token.version ≤ 24 <;>
      simp [ofToken, versionRanges, VersionRange.covers, Browser.dialect, hb, hv]
  | safari =>
    by_cases hv : 6 ≤ token.version <;>
      simp [ofToken, versionRanges, VersionRange.covers, Browser.dialect, hb, hv, hle]
  | explorer =>
    by_cases hv : 10 ≤ token.version ∧ token.version ≤ 19 <;>
      simp [ofToken, versionRanges, VersionRange.covers, Browser.dialect, hb, hv]

theorem ofToken_eq_dialect (token : BrowserToken) : ofToken token = token.dialect := by
  rw [ofToken_eq_dialect_version, BrowserToken.version, BrowserToken.dialect,
    BrowserToken.decimalValue_eq_number]
  split
  · exact token.browser.dialect_min_largestVersion _
  · exact token.browser.dialect_largestVersion

end HeaderDialect

namespace HeaderDialect

theorem ofUserAgent_of_isFirst {userAgent : String} {token : BrowserToken}
    (h : token.IsFirst userAgent.toList) : ofUserAgent (some userAgent) = token.dialect := by
  rw [ofUserAgent, Option.bind_some, (token.first?_eq_some_iff _).2 h]
  exact ofToken_eq_dialect token

theorem ofUserAgent_of_no_token {userAgent : String}
    (h : ∀ (token : BrowserToken) (before : List Char),
      ¬ token.StandsBehind before userAgent.toList) : ofUserAgent (some userAgent) = .standard := by
  rw [ofUserAgent, Option.bind_some, (BrowserToken.first?_eq_none_iff _).2 h]

end HeaderDialect

/-- A user agent gets the dialect of its first token, whose version counts at its full value, and the
standard where it has none. Whatever stands around the first token, the dialect is the same. -/
theorem first_token_decides_dialect (userAgent : String) :
    (∀ dialect, HeaderDialect.ofUserAgent (some userAgent) = dialect ↔
      (∃ token : BrowserToken, token.IsFirst userAgent.toList ∧ dialect = token.dialect) ∨
      (∀ (token : BrowserToken) (before : List Char),
        ¬ token.StandsBehind before userAgent.toList) ∧ dialect = .standard) ∧
    ∀ (other : String) (token : BrowserToken),
      token.IsFirst userAgent.toList → token.IsFirst other.toList →
        HeaderDialect.ofUserAgent (some other) = HeaderDialect.ofUserAgent (some userAgent) := by
  refine ⟨fun dialect => ?_, fun other token ht ht' => ?_⟩
  · cases hf : BrowserToken.first? userAgent.toList with
    | none =>
      rw [HeaderDialect.ofUserAgent_of_no_token ((BrowserToken.first?_eq_none_iff _).1 hf)]
      simp only [← BrowserToken.first?_eq_some_iff, ← BrowserToken.first?_eq_none_iff, hf]
      simp [eq_comm]
    | some token =>
      rw [HeaderDialect.ofUserAgent_of_isFirst ((token.first?_eq_some_iff _).1 hf)]
      simp only [← BrowserToken.first?_eq_some_iff, ← BrowserToken.first?_eq_none_iff, hf]
      simp [eq_comm]
  · rw [HeaderDialect.ofUserAgent_of_isFirst ht', HeaderDialect.ofUserAgent_of_isFirst ht]

/-- Two names without a fitting version come before the token, whose number takes more than 64 bits. -/
theorem first_token_decides_dialect_beyond_64_bits :
    ∃ token : BrowserToken,
      token.IsFirst "MSIE 9; Chrome/ Safari/018446744073709551616 Firefox/4".toList ∧
      token.IsFirst "Safari/018446744073709551616".toList ∧
      HeaderDialect.ofUserAgent (some "MSIE 9; Chrome/ Safari/018446744073709551616 Firefox/4") =
        .webKit ∧
      HeaderDialect.ofUserAgent (some "Safari/018446744073709551616") =
        HeaderDialect.ofUserAgent
          (some "MSIE 9; Chrome/ Safari/018446744073709551616 Firefox/4") := by
  let token : BrowserToken := ⟨.safari, "018446744073709551616".toList⟩
  have hfirst : token.IsFirst "MSIE 9; Chrome/ Safari/018446744073709551616 Firefox/4".toList :=
    (token.first?_eq_some_iff _).1 (by decide)
  have halone : token.IsFirst "Safari/018446744073709551616".toList :=
    (token.first?_eq_some_iff _).1 (by decide)
  have hwebKit : token.dialect = .webKit :=
    (HeaderDialect.ofToken_eq_dialect token).symm.trans (by decide)
  have hdialect := first_token_decides_dialect
    "MSIE 9; Chrome/ Safari/018446744073709551616 Firefox/4"
  exact ⟨token, hfirst, halone, (hdialect.1 .webKit).2 (Or.inl ⟨token, hfirst, hwebKit.symm⟩),
    hdialect.2 _ token hfirst halone⟩

end ContentSecurity
