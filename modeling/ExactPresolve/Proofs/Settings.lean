import ExactPresolve.Proofs.Toml
import ExactPresolve.Settings
import Mathlib.Algebra.Order.Ring.Unbundled.Rat

/-!
# Options read from documents

Once the settings of a document are known, everything turns on the slack that they ask for: nothing
written down is zero, an integer is itself, and text is the number that it is read as. Options come
out exactly if such a number exists and is not negative. Otherwise the error tells which text could
not be read, or which number is negative.

How a document is read does not matter for this. If its plain text is read as it stands, then it can
ask for any slack by the text of this number.

* `Settings.AsksFor`, `Settings.asked`: the slack that settings ask for;
* `Options.ofSettings_eq`: the options of settings, in two steps;
* `Settings.ReadsPlainText`: a reader of documents that takes plain text as it stands, and
  `Settings.readsPlainText_ofText?`: such a reader;
* **`Options.ofDocument_exact`**: options are read exactly or refused.
-/

namespace ExactPresolve

open Toml

/-! ## The slack that settings ask for -/

namespace SlackLiteral

variable {t : String} {q : ℚ} {e : SettingsError}

theorem number_text_eq_ok_iff : (text t).number = .ok q ↔ Number.read t = .ok q := by
  show (Number.read t).mapError SettingsError.invalidSlack = .ok q ↔ _
  cases Number.read t <;> simp [Except.mapError]

/-- The error carries the text. -/
theorem number_text_eq_error_iff : (text t).number = .error e ↔
    (∀ q, Number.read t ≠ .ok q) ∧ e = .invalidSlack ⟨t⟩ := by
  show (Number.read t).mapError SettingsError.invalidSlack = .error e ↔ _
  rw [Number.read]
  cases Number.ofText? t <;> simp [Except.mapError, eq_comm]

end SlackLiteral

namespace Settings

/-- The slack that settings ask for. Text that no number is read from asks for none. -/
inductive AsksFor (s : Settings) : ℚ → Prop
  | absent (h : s.slack = none) : AsksFor s 0
  | integer {n : ℤ} (h : s.slack = some (.integer n)) : AsksFor s n
  | text {t : String} {q : ℚ} (h : s.slack = some (.text t)) (hq : Number.read t = .ok q) :
      AsksFor s q

/-- The slack that settings ask for, before its sign is looked at. -/
def asked (s : Settings) : Except SettingsError ℚ :=
  match s.slack with
  | none => .ok 0
  | some literal => literal.number

variable {s : Settings} {q : ℚ} {e : SettingsError}

theorem asked_eq_ok_iff : s.asked = .ok q ↔ s.AsksFor q := by
  constructor
  · intro h
    unfold asked at h
    split at h
    case h_1 hs =>
      obtain rfl := Except.ok.inj h
      exact .absent hs
    case h_2 literal hs =>
      cases literal with
      | integer n =>
        obtain rfl := Except.ok.inj h
        exact .integer hs
      | text t => exact .text hs (SlackLiteral.number_text_eq_ok_iff.mp h)
  · rintro (h | h | ⟨h, hq⟩)
    · rw [asked, h]
    · rw [asked, h]
      rfl
    · rw [asked, h]
      exact SlackLiteral.number_text_eq_ok_iff.mpr hq

/-- Only text can fail to be a number. -/
theorem asked_eq_error_iff : s.asked = .error e ↔
    ∃ t, s.slack = some (.text t) ∧ (∀ q, Number.read t ≠ .ok q) ∧ e = .invalidSlack ⟨t⟩ := by
  unfold asked
  cases s.slack with
  | none => simp
  | some literal =>
    cases literal with
    | integer n => simp [SlackLiteral.number]
    | text t => simp [SlackLiteral.number_text_eq_error_iff]

end Settings

/-! ## Options of settings -/

namespace Options

variable {o o' : Options} {s : Settings} {q : ℚ} {e : SettingsError}

theorem withSlack_eq_ok_iff : o.withSlack q = .ok o' ↔ 0 ≤ q ∧ o' = { o with slack := q } := by
  unfold withSlack
  split_ifs with hq
  · simp [hq]
  · simp [not_lt.mp hq, eq_comm]

theorem withSlack_eq_error_iff : o.withSlack q = .error e ↔ q < 0 ∧ e = .negativeSlack q := by
  unfold withSlack
  split_ifs with hq
  · simp [hq, eq_comm]
  · simp [hq]

/-- The options of settings. A missing slack is treated like a zero one. -/
theorem ofSettings_eq (s : Settings) : ofSettings s = s.asked.bind
    (withSlack ⟨standard.slack, s.iterationLimit.or standard.iterationLimit⟩) := by
  unfold ofSettings Settings.asked
  cases s.slack with
  | none => rfl
  | some literal => rfl

theorem ofSettings_eq_ok_iff : ofSettings s = .ok o ↔ s.AsksFor o.slack ∧ 0 ≤ o.slack ∧
    o.iterationLimit = s.iterationLimit.or standard.iterationLimit := by
  rw [ofSettings_eq, ← Settings.asked_eq_ok_iff]
  cases s.asked with
  | error e => simp [Except.bind]
  | ok q =>
    obtain ⟨slack, limit⟩ := o
    simp only [Except.bind, withSlack_eq_ok_iff, Except.ok.injEq, Options.mk.injEq]
    constructor
    · rintro ⟨hq, rfl, rfl⟩
      exact ⟨rfl, hq, rfl⟩
    · rintro ⟨rfl, hq, rfl⟩
      exact ⟨hq, rfl, rfl⟩

/-- Either no number is asked for, or a negative one. -/
theorem ofSettings_eq_error_iff : ofSettings s = .error e ↔
    (∃ t, s.slack = some (.text t) ∧ (∀ q, Number.read t ≠ .ok q) ∧ e = .invalidSlack ⟨t⟩) ∨
      ∃ q, s.AsksFor q ∧ q < 0 ∧ e = .negativeSlack q := by
  rw [ofSettings_eq, ← Settings.asked_eq_error_iff]
  simp only [← Settings.asked_eq_ok_iff]
  cases s.asked with
  | error e => simp [Except.bind]
  | ok q => simp [Except.bind, withSlack_eq_error_iff]

theorem ofDocument_eq {toml : String → Option Settings} {document : String}
    (h : toml document = some s) : ofDocument toml document = ofSettings s := by
  rw [ofDocument, h]

end Options

/-! ## A document that says nothing but a slack -/

namespace Settings

variable {t : List Char}

/-- The line of a document that gives the slack as text. -/
def slackLine (t : List Char) : List Char := slackKey ++ ' ' :: '=' :: ' ' :: '"' :: (t ++ ['"'])

/-- The document with the header of the table and this line. -/
def slackDocument (t : List Char) : List Char := '[' :: (tableKey ++ ']' :: '\n' :: slackLine t)

theorem line?_header (s : List Char) :
    line? ('[' :: (tableKey ++ ']' :: '\n' :: s)) = some (.table ⟨[], tableKey⟩, s) := rfl

theorem path?_slackKey (s : List Char) :
    path? (slackKey ++ ' ' :: '=' :: s) = some (⟨[], slackKey⟩, '=' :: s) := rfl

theorem line?_slackLine (ht : IsPlain t) :
    line? (slackLine t) = some (.assignment ⟨⟨[], slackKey⟩, .string t⟩, []) := by
  have ha : assignment? (value? maxDepth) (slackLine t) =
      some (⟨⟨[], slackKey⟩, .string t⟩, []) := by
    simp [assignment?, slackLine, path?_slackKey, literally, skipSpace, isSpace,
      value?_string ht]
  exact line?_assignment (by decide) ha rfl

theorem document?_slackDocument (ht : IsPlain t) :
    document? (slackDocument t) = some [(tableKey, .table .header [(slackKey, .string t)])] := by
  have hmany : many line? (slackDocument t) =
      ([.table ⟨[], tableKey⟩, .assignment ⟨⟨[], slackKey⟩, .string t⟩], []) :=
    many_pair (line?_header _) (line?_slackLine ht) rfl
  have hlines : lines? (slackDocument t) =
      some [.table ⟨[], tableKey⟩, .assignment ⟨⟨[], slackKey⟩, .string t⟩] := by
    simp only [lines?, hmany]
  have hmark : dropMark (slackDocument t) = slackDocument t := rfl
  rw [document?, hmark, hlines]
  rfl

/-- The reader takes plain text between double quotes as it stands. -/
def ReadsPlainText (toml : String → Option Settings) : Prop :=
  ∀ t, IsPlain t → toml ("[presolve]\nslack = \"" ++ String.ofList t ++ "\"") =
    some ⟨some (.text (String.ofList t)), none⟩

theorem readsPlainText_ofText? : ReadsPlainText ofText? := by
  intro t ht
  have hchars : ("[presolve]\nslack = \"" ++ String.ofList t ++ "\"").toList =
      slackDocument t := by
    simp [slackDocument, slackLine, tableKey, slackKey]
  rw [ofText?, hchars, document?_slackDocument ht]
  rfl

end Settings

/-! ## Options of documents -/

namespace Options

open Number (text read)

/-- **Options are read exactly or refused**, in whichever form the slack is written, and every slack can
be asked for by its text. -/
theorem ofDocument_exact (toml : String → Option Settings) :
    (∀ document s, toml document = some s →
      (∀ o, ofDocument toml document = .ok o ↔ s.AsksFor o.slack ∧ 0 ≤ o.slack ∧
        o.iterationLimit = s.iterationLimit.or standard.iterationLimit) ∧
      (∀ t, ofDocument toml document = .error (.invalidSlack ⟨t⟩) ↔
        s.slack = some (.text t) ∧ ∀ q, read t ≠ .ok q) ∧
      ∀ q, (ofDocument toml document = .error (.negativeSlack q) ↔ s.AsksFor q ∧ q < 0) ∧
        ∃ t, (SettingsError.negativeSlack q).message? =
            some ("slack can't be negative, got " ++ t) ∧ read t = .ok q) ∧
      (Settings.ReadsPlainText toml → ∀ q, 0 ≤ q →
        ofDocument toml ("[presolve]\nslack = \"" ++ text q ++ "\"") =
          .ok { standard with slack := q }) := by
  have hread (q : ℚ) : read (text q) = .ok q := by
    simpa using Number.read_text q (a := "") (b := "") (by simp) (by simp)
  refine ⟨fun document s h => ?_, fun hplain q hq => ?_⟩
  · rw [ofDocument_eq h]
    refine ⟨fun o => ofSettings_eq_ok_iff, fun t => ?_, fun q => ⟨?_, text q, rfl, hread q⟩⟩
    · rw [ofSettings_eq_error_iff]
      simp
    · rw [ofSettings_eq_error_iff]
      simp
  · have hs : toml ("[presolve]\nslack = \"" ++ text q ++ "\"") =
        some ⟨some (.text (text q)), none⟩ := hplain _ (isPlain_chars q)
    rw [ofDocument_eq hs, ofSettings_eq_ok_iff]
    exact ⟨.text rfl (hread q), hq, rfl⟩

/-- Both numbers of the fraction are negative. -/
def halfDocument : String := "[presolve]\nslack = \"-3/-6\"\niteration_limit = 50\n"

/-- The table is written in braces, and the slack is a negative decimal. -/
def belowZeroDocument : String := "presolve = \x7bslack = \"-1e-3\"\x7d"

theorem ofDocument_exact_forms :
    ofDocument Settings.ofText? "[presolve]\niteration_limit = 7" = .ok ⟨0, some 7⟩ ∧
      ofDocument Settings.ofText? "[presolve]\nslack = 3" = .ok ⟨3, some 1000⟩ ∧
      ofDocument Settings.ofText? "[presolve]\nslack = -2" = .error (.negativeSlack (-2)) ∧
      ofDocument Settings.ofText? halfDocument = .ok ⟨1 / 2, some 50⟩ ∧
      ofDocument Settings.ofText? belowZeroDocument = .error (.negativeSlack (-1 / 1000)) ∧
      ofDocument Settings.ofText? "[presolve]\nslack = \"a lot\"" =
        .error (.invalidSlack ⟨"a lot"⟩) ∧
      ofDocument Settings.ofText? ("[presolve]\nslack = \"" ++ text (2 / 7) ++ "\"") =
        .ok ⟨2 / 7, some 1000⟩ := by
  obtain ⟨hexact, htext⟩ := ofDocument_exact Settings.ofText?
  have hlimit : Settings.ofText? "[presolve]\niteration_limit = 7" = some ⟨none, some 7⟩ := by
    decide +kernel
  have hthree : Settings.ofText? "[presolve]\nslack = 3" = some ⟨some (.integer 3), none⟩ := by
    decide +kernel
  have hminus : Settings.ofText? "[presolve]\nslack = -2" = some ⟨some (.integer (-2)), none⟩ := by
    decide +kernel
  have hhalf : Settings.ofText? halfDocument = some ⟨some (.text "-3/-6"), some 50⟩ := by
    decide +kernel
  have hbelow : Settings.ofText? belowZeroDocument = some ⟨some (.text "-1e-3"), none⟩ := by
    decide +kernel
  have hlot : Settings.ofText? "[presolve]\nslack = \"a lot\"" =
      some ⟨some (.text "a lot"), none⟩ := by decide +kernel
  refine ⟨?_, ?_, ?_, ?_, ?_, ?_, ?_⟩
  · exact ((hexact _ _ hlimit).1 ⟨0, some 7⟩).mpr ⟨.absent rfl, by decide +kernel, rfl⟩
  · exact ((hexact _ _ hthree).1 ⟨3, some 1000⟩).mpr ⟨.integer rfl, by decide +kernel, rfl⟩
  · exact (((hexact _ _ hminus).2.2 (-2)).1).mpr ⟨.integer rfl, by decide +kernel⟩
  · exact ((hexact _ _ hhalf).1 ⟨1 / 2, some 50⟩).mpr
      ⟨.text rfl (by decide +kernel), by decide +kernel, rfl⟩
  · exact (((hexact _ _ hbelow).2.2 (-1 / 1000)).1).mpr
      ⟨.text rfl (by decide +kernel), by decide +kernel⟩
  · have hread : read "a lot" = .error ⟨"a lot"⟩ := by decide +kernel
    exact ((hexact _ _ hlot).2.1 "a lot").mpr ⟨rfl, fun q hq => nomatch hread.symm.trans hq⟩
  · exact htext Settings.readsPlainText_ofText? (2 / 7) (by decide +kernel)

end Options

end ExactPresolve
