/-
The cached reads of a state file (`services.index_state`), with any number of calls going on
side by side and the file being replaced in between.

A call stats the file, looks at the cache, reads and parses the file, and stores what it got
under the signature that it saw first; each is a step of its own.  So a text may come to stand
under the signature of an older file.  It never matters: who sees this signature started before
the text was replaced.

* `step_cases` — what each step does to its call, the cache and the file;
* `run_known` — what a call and the cache know of the file's past;
* `cachedJson_iff` — every call returns what the file said at an instant of the call, iff no
  read meets a file that makes it raise.
-/
import Mathlib.Logic.Function.Basic
import MjlSearch.IndexState
import MjlSearch.Runs
import MjlSearch.Stamps
import MjlSearch.Text

open Runs Stamps Text

namespace IndexState

/-! ### The source -/

/-- A file: when it was written, its number, and its bytes. -/
structure StateFile where
  mtimeNs : ℤ
  ino : ℕ
  content : List UInt8
  deriving DecidableEq

/-- The file's identity: mtime in nanoseconds, size, inode. -/
structure Signature where
  mtimeNs : ℤ
  size : ℕ
  ino : ℕ
  deriving DecidableEq

/-- `_signature`, of what stands at the path. -/
def signature (file : Option StateFile) : Option Signature :=
  file.map fun file => ⟨file.mtimeNs, file.content.length, file.ino⟩

/-- The line ends of a text that is read in text mode. -/
def universalNewlines : Str → Str
  | [] => []
  | '\r' :: '\n' :: s => '\n' :: universalNewlines s
  | c :: s => (if c = '\r' then '\n' else c) :: universalNewlines s

/-- `read_text(encoding="utf-8")`, which raises `UnicodeDecodeError` where there is no text. -/
def readText (content : List UInt8) : Option Str := (fromUtf8 content).map universalNewlines

/-- What `json.loads` comes to: a value, a `JSONDecodeError`, or another exception, such as
that of a number with too many digits or of too many brackets in each other. -/
inductive Loaded
  | value (value : Json)
  | decodeError
  | otherError

/-- How far a call of `_cached_json` is. -/
inductive Call
  | idle
  | statted (signature : Signature)
  | missed (signature : Signature)
  | parsed (signature : Signature) (value : Json)
  | returned (value : Option Json)
  | raised

/-- What a call has come to after reading the file. -/
def readFile (loads : Str → Loaded) (signature : Signature) : Option StateFile → Call
  | none => .returned none
  | some file =>
    match readText file.content with
    | none => .raised
    | some text =>
      match loads text with
      | .value value => .parsed signature value
      | .decodeError => .returned none
      | .otherError => .raised

variable {ι : Type*}

/-- The file, the cache's entry for it, and the calls. -/
structure Reader (ι : Type*) where
  file : Option StateFile
  cache : Option (Signature × Json)
  calls : ι → Call

/-- A step: of a call, of a writer, or of `clear_state_caches`. -/
inductive Event (ι : Type*)
  | replace (file : Option StateFile)
  | stat (i : ι)
  | lookup (i : ι)
  | read (i : ι)
  | store (i : ι)
  | clear
  deriving DecidableEq

variable [DecidableEq ι]

/-- A call comes to its next part. -/
def Reader.goOn (r : Reader ι) (i : ι) (call : Call) : Reader ι :=
  { r with calls := Function.update r.calls i call }

/-- One step, where it is possible. -/
def step (loads : Str → Loaded) (r : Reader ι) : Event ι → Option (Reader ι)
  | .replace file => some { r with file }
  | .clear => some { r with cache := none }
  | .stat i =>
    match r.calls i with
    | .idle =>
      match signature r.file with
      | none => some (r.goOn i (.returned none))
      | some signature => some (r.goOn i (.statted signature))
    | _ => none
  | .lookup i =>
    match r.calls i with
    | .statted signature =>
      match r.cache with
      | none => some (r.goOn i (.missed signature))
      | some (cached, value) =>
        if cached = signature then some (r.goOn i (.returned (some value)))
        else some (r.goOn i (.missed signature))
    | _ => none
  | .read i =>
    match r.calls i with
    | .missed signature => some (r.goOn i (readFile loads signature r.file))
    | _ => none
  | .store i =>
    match r.calls i with
    | .parsed signature value =>
      some { r.goOn i (.returned (some value)) with cache := some (signature, value) }
    | _ => none

/-- Before any call, with an empty cache. -/
def fresh (file : Option StateFile) : Reader ι := ⟨file, none, fun _ => .idle⟩

/-- A run from there. -/
abbrev Reads (loads : Str → Loaded) (file : Option StateFile) : List (Event ι) → Reader ι → Prop :=
  Run (fun r e r' => step loads r e = some r') (fresh file)

/-! ### What a call should return -/

/-- What a file says: nothing when there is none, or none that parses. -/
def contents (loads : Str → Loaded) : Option StateFile → Option Json
  | none => none
  | some file =>
    match readText file.content with
    | none => none
    | some text =>
      match loads text with
      | .value value => some value
      | _ => none

/-- A file that nothing is raised for: its bytes are those of a text, and the text parses or
gives a `JSONDecodeError`. -/
def Clean (loads : Str → Loaded) (file : Option StateFile) : Prop :=
  ∀ found, file = some found →
    ∃ text, found.content = utf8 text ∧ loads (universalNewlines text) ≠ .otherError

/-- What a step puts in the place of the file. -/
def replaced : Event ι → Option (Option StateFile)
  | .replace file => some file
  | _ => none

/-- The file after some steps. -/
abbrev fileAt (file : Option StateFile) (es : List (Event ι)) : Option StateFile :=
  held replaced file es

/-- The call has returned or raised. -/
def Call.Over : Call → Prop
  | .returned _ | .raised => True
  | _ => False

/-- The instant is one of the call: the call is not over there, and has begun when the next
step is done. -/
def During (loads : Str → Loaded) (file : Option StateFile) (es : List (Event ι)) (i : ι)
    (now : List (Event ι)) : Prop :=
  ∃ e more r r', es = now ++ e :: more ∧ Reads loads file now r ∧ step loads r e = some r' ∧
    ¬ (r.calls i).Over ∧ r'.calls i ≠ .idle

/-- Every call that is over returned what the file said at an instant of the call. -/
def Linearizable (loads : Str → Loaded) (file : Option StateFile) (es : List (Event ι))
    (r : Reader ι) : Prop :=
  ∀ i, (r.calls i).Over →
    ∃ now, During loads file es i now ∧ r.calls i = .returned (contents loads (fileAt file now))

/-- Every call that began after the last replacement returned what the last file says. -/
def LatestRead (loads : Str → Loaded) (file : Option StateFile) (es : List (Event ι))
    (r : Reader ι) : Prop :=
  ∀ i before after b, es = before ++ after → after.filterMap replaced = [] →
    Reads loads file before b → b.calls i = .idle → (r.calls i).Over →
    r.calls i = .returned (contents loads r.file)

/-- No call comes to read a file that makes it raise. -/
def CleanReads (loads : Str → Loaded) (file : Option StateFile) (es : List (Event ι)) : Prop :=
  ∀ before i after, es = before ++ .read i :: after → Clean loads (fileAt file before)

/-! ### Steps -/

variable {loads : Str → Loaded} {file : Option StateFile} {es : List (Event ι)}
  {r r' : Reader ι} {e : Event ι} {i j : ι}

/-- What a step may be. -/
inductive Stepped (loads : Str → Loaded) (r : Reader ι) : Event ι → Reader ι → Prop
  | replace (file : Option StateFile) : Stepped loads r (.replace file) { r with file }
  | clear : Stepped loads r .clear { r with cache := none }
  | absent (i : ι) (hcall : r.calls i = .idle) (hfile : signature r.file = none) :
      Stepped loads r (.stat i) (r.goOn i (.returned none))
  | statted (i : ι) {sig : Signature} (hcall : r.calls i = .idle)
      (hfile : signature r.file = some sig) :
      Stepped loads r (.stat i) (r.goOn i (.statted sig))
  | missed (i : ι) {sig : Signature} (hcall : r.calls i = .statted sig) :
      Stepped loads r (.lookup i) (r.goOn i (.missed sig))
  | hit (i : ι) {sig : Signature} {value : Json} (hcall : r.calls i = .statted sig)
      (hcache : r.cache = some (sig, value)) :
      Stepped loads r (.lookup i) (r.goOn i (.returned (some value)))
  | read (i : ι) {sig : Signature} (hcall : r.calls i = .missed sig) :
      Stepped loads r (.read i) (r.goOn i (readFile loads sig r.file))
  | store (i : ι) {sig : Signature} {value : Json} (hcall : r.calls i = .parsed sig value) :
      Stepped loads r (.store i)
        { r.goOn i (.returned (some value)) with cache := some (sig, value) }

theorem step_cases (h : step loads r e = some r') : Stepped loads r e r' := by
  unfold step at h
  split at h
  · cases h
    exact .replace _
  · cases h
    exact .clear
  · rename_i i
    split at h
    · rename_i hcall
      split at h
      · rename_i hfile
        cases h
        exact .absent i hcall hfile
      · rename_i sig hfile
        cases h
        exact .statted i hcall hfile
    · cases h
  · rename_i i
    split at h
    · rename_i sig hcall
      split at h
      · cases h
        exact .missed i hcall
      · rename_i cached value hcache
        split at h
        · rename_i hsame
          cases h
          exact .hit i hcall (hsame ▸ hcache)
        · cases h
          exact .missed i hcall
    · cases h
  · rename_i i
    split at h
    · rename_i sig hcall
      cases h
      exact .read i hcall
    · cases h
  · rename_i i
    split at h
    · rename_i sig value hcall
      cases h
      exact .store i hcall
    · cases h

@[simp] theorem goOn_self (r : Reader ι) (i : ι) (call : Call) : (r.goOn i call).calls i = call :=
  Function.update_self ..

theorem goOn_other (r : Reader ι) (call : Call) (h : j ≠ i) :
    (r.goOn i call).calls j = r.calls j := Function.update_of_ne h ..

/-- The file is the one that was put there last. -/
theorem run_file (h : Reads loads file es r) : r.file = fileAt file es := by
  induction h with
  | refl => rfl
  | @snoc es e r r' _ hstep ih =>
    rw [fileAt, held_snoc, ← fileAt, ← ih]
    cases step_cases hstep with
    | replace _ | clear | absent _ _ _ | statted _ _ _ | missed _ _ | hit _ _ _ | read _ _
    | store _ _ => rfl

theorem readFile_ne_idle (sig : Signature) (file : Option StateFile) :
    readFile loads sig file ≠ .idle := by
  unfold readFile
  split
  · exact Call.noConfusion
  · split
    · exact Call.noConfusion
    · split <;> exact Call.noConfusion

/-- A step leaves a call as it is, or takes it on: then it was not over, and has begun. -/
theorem call_cases (h : step loads r e = some r') (j : ι) :
    r'.calls j = r.calls j ∨ (¬ (r.calls j).Over ∧ r'.calls j ≠ .idle) := by
  have hacts : ∀ i call, ¬ (r.calls i).Over → call ≠ .idle →
      (r.goOn i call).calls j = r.calls j ∨
        (¬ (r.calls j).Over ∧ (r.goOn i call).calls j ≠ .idle) := by
    intro i call hover hcall
    by_cases hji : j = i
    · subst hji
      rw [goOn_self]
      exact Or.inr ⟨hover, hcall⟩
    · exact Or.inl (goOn_other r call hji)
  cases step_cases h with
  | replace _ | clear => exact Or.inl rfl
  | absent i hcall _ | statted i hcall _ | missed i hcall | hit i hcall _ =>
    exact hacts i _ (by rw [hcall]; exact id) Call.noConfusion
  | read i hcall => exact hacts i _ (by rw [hcall]; exact id) (readFile_ne_idle _ _)
  | store i hcall => exact hacts i _ (by rw [hcall]; exact id) Call.noConfusion

/-- A call that is over stays as it is, and one that has begun is not idle again. -/
theorem run_calls (h : Run (fun r e r' => step loads r e = some r') r es r') (j : ι) :
    ((r.calls j).Over → r'.calls j = r.calls j) ∧ (r.calls j ≠ .idle → r'.calls j ≠ .idle) := by
  induction h with
  | refl => exact ⟨fun _ => rfl, id⟩
  | @snoc es e s s' _ hstep ih =>
    rcases call_cases hstep j with hsame | ⟨hover, hbegun⟩
    · rw [hsame]
      exact ih
    · refine ⟨fun hr => ?_, fun _ => hbegun⟩
      rw [← ih.1 hr] at hr
      exact absurd hr hover

theorem stat_begins (h : step loads r (.stat i) = some r') : r'.calls i ≠ .idle := by
  cases step_cases h with
  | absent _ _ _ | statted _ _ _ =>
    rw [goOn_self]
    exact Call.noConfusion

/-! ### The past of a call -/

/-- A call has begun when its stat is done. -/
theorem begun_of_stat (hrun : Reads loads file es r) {taken : List (Event ι)}
    (htaken : taken ++ [.stat i] <+: es) : r.calls i ≠ .idle := by
  obtain ⟨rest, rfl⟩ := htaken
  obtain ⟨b, hbefore, hafter⟩ := hrun.of_append
  obtain ⟨a, -, hstat⟩ := hbefore.last
  exact (run_calls hafter i).2 (stat_begins hstat)

theorem During.append {now : List (Event ι)} (h : During loads file es i now) (e : Event ι) :
    During loads file (es ++ [e]) i now := by
  obtain ⟨e', more, b, b', rfl, hrun, hstep, hover, hbegun⟩ := h
  exact ⟨e', more ++ [e], b, b', by simp, hrun, hstep, hover, hbegun⟩

/-- An instant between the stat of a call and the step that ends it is one of the call. -/
theorem during_between (hrun : Reads loads file es r) (hstep : step loads r e = some r')
    (hover : ¬ (r.calls i).Over) {taken now : List (Event ι)}
    (htaken : taken ++ [.stat i] <+: es ++ [e]) (hnow : taken <+: now) (hend : now <+: es) :
    During loads file (es ++ [e]) i now := by
  obtain ⟨rest, rfl⟩ := hend
  obtain ⟨b, hbefore, hrest⟩ := hrun.of_append
  -- what is over at the instant is over at the end
  have hgoing : ¬ (b.calls i).Over := fun hc => hover ((run_calls hrest i).1 hc ▸ hc)
  obtain ⟨next, more, hmore⟩ : ∃ next more, rest ++ [e] = next :: more := by
    rcases rest with _ | ⟨next, rest⟩
    · exact ⟨e, [], rfl⟩
    · exact ⟨next, rest ++ [e], rfl⟩
  have hfollows : Run (fun r e r' => step loads r e = some r') b (next :: more) r' :=
    hmore ▸ hrest.snoc hstep
  obtain ⟨b', hnext, -⟩ := hfollows.of_cons
  rw [List.append_assoc, hmore] at htaken ⊢
  refine ⟨next, more, b, b', rfl, hbefore, hnext, hgoing, ?_⟩
  -- the stat is among the steps up to the next one
  have hstat : taken ++ [.stat i] <+: now ++ [next] := by
    rw [List.append_cons now next more] at htaken
    refine List.prefix_of_prefix_length_le htaken (List.prefix_append _ _) ?_
    have hle := hnow.length_le
    rw [List.length_append, List.length_append, List.length_singleton, List.length_singleton]
    omega
  exact begun_of_stat (hbefore.snoc hnext) hstat

/-- What a call that is this far has seen. -/
def Seen (loads : Str → Loaded) (file : Option StateFile) (es : List (Event ι)) (i : ι) :
    Call → Prop
  | .idle => True
  | .statted sig | .missed sig =>
    ∃ taken, taken ++ [.stat i] <+: es ∧ signature (fileAt file taken) = some sig
  | .parsed sig value =>
    ∃ taken read, taken ++ [.stat i] <+: es ∧ taken <+: read ∧ read <+: es ∧
      signature (fileAt file taken) = some sig ∧ contents loads (fileAt file read) = some value
  | .returned value =>
    ∃ now, During loads file es i now ∧ value = contents loads (fileAt file now)
  | .raised =>
    ∃ before after, es = before ++ .read i :: after ∧ ¬ Clean loads (fileAt file before)

/-- What the cache holds was read later than its signature was seen. -/
def Kept (loads : Str → Loaded) (file : Option StateFile) (es : List (Event ι))
    (cache : Option (Signature × Json)) : Prop :=
  ∀ sig value, cache = some (sig, value) → ∃ taken read, taken <+: read ∧ read <+: es ∧
    signature (fileAt file taken) = some sig ∧ contents loads (fileAt file read) = some value

theorem Seen.append {call : Call} (h : Seen loads file es i call) (e : Event ι) :
    Seen loads file (es ++ [e]) i call := by
  have hlonger : es <+: es ++ [e] := List.prefix_append es [e]
  cases call with
  | idle => trivial
  | statted sig | missed sig =>
    obtain ⟨taken, hstat, hsig⟩ := h
    exact ⟨taken, hstat.trans hlonger, hsig⟩
  | parsed sig value =>
    obtain ⟨taken, read, hstat, htaken, hread, hsig, hvalue⟩ := h
    exact ⟨taken, read, hstat.trans hlonger, htaken, hread.trans hlonger, hsig, hvalue⟩
  | returned value =>
    obtain ⟨now, hduring, hvalue⟩ := h
    exact ⟨now, hduring.append e, hvalue⟩
  | raised =>
    obtain ⟨before, after, rfl, hraises⟩ := h
    exact ⟨before, after ++ [e], by simp, hraises⟩

omit [DecidableEq ι] in
theorem Kept.append {cache : Option (Signature × Json)} (h : Kept loads file es cache)
    (e : Event ι) : Kept loads file (es ++ [e]) cache := by
  intro sig value hcache
  obtain ⟨taken, read, htaken, hread, hsig, hvalue⟩ := h sig value hcache
  exact ⟨taken, read, htaken, hread.trans (List.prefix_append es [e]), hsig, hvalue⟩

/-! ### Texts -/

theorem readText_eq_some {content : List UInt8} {text : Str} :
    readText content = some text ↔
      ∃ written, content = utf8 written ∧ text = universalNewlines written := by
  simp only [readText, Option.map_eq_some_iff, fromUtf8_eq_some]
  constructor
  · rintro ⟨written, hcontent, rfl⟩
    exact ⟨written, hcontent, rfl⟩
  · rintro ⟨written, hcontent, rfl⟩
    exact ⟨written, hcontent, rfl⟩

theorem clean_some {found : StateFile} :
    Clean loads (some found) ↔ ∃ text, readText found.content = some text ∧
      loads text ≠ .otherError := by
  constructor
  · intro h
    obtain ⟨written, hcontent, hloads⟩ := h found rfl
    exact ⟨_, readText_eq_some.mpr ⟨written, hcontent, rfl⟩, hloads⟩
  · rintro ⟨text, htext, hloads⟩ _ hfound
    cases hfound
    obtain ⟨written, hcontent, rfl⟩ := readText_eq_some.mp htext
    exact ⟨written, hcontent, hloads⟩

/-- A read of a clean file gets what the file says, and one of another raises. -/
theorem readFile_cases (loads : Str → Loaded) (sig : Signature) (file : Option StateFile) :
    (Clean loads file ∧
      ((readFile loads sig file = .returned none ∧ contents loads file = none) ∨
        ∃ value, readFile loads sig file = .parsed sig value ∧
          contents loads file = some value)) ∨
      (¬ Clean loads file ∧ readFile loads sig file = .raised) := by
  rcases file with _ | found
  · have hclean : Clean loads none := fun _ hfound => nomatch hfound
    exact Or.inl ⟨hclean, Or.inl ⟨rfl, rfl⟩⟩
  · rw [clean_some]
    rcases htext : readText found.content with _ | text
    · exact Or.inr ⟨by simp, by simp [readFile, htext]⟩
    · rcases hloads : loads text with value | _ | _
      · refine Or.inl ⟨⟨text, rfl, by simp [hloads]⟩, Or.inr ⟨value, ?_, ?_⟩⟩
        · simp [readFile, htext, hloads]
        · simp [contents, htext, hloads]
      · refine Or.inl ⟨⟨text, rfl, by simp [hloads]⟩, Or.inl ⟨?_, ?_⟩⟩
        · simp [readFile, htext, hloads]
        · simp [contents, htext, hloads]
      · exact Or.inr ⟨by simp [hloads], by simp [readFile, htext, hloads]⟩

/-! ### Runs -/

/-- Another call is not touched, and has seen what it has. -/
theorem seen_goOn {call : Call} (hseen : ∀ j, Seen loads file es j (r.calls j))
    (hcall : Seen loads file (es ++ [e]) i call) (j : ι) :
    Seen loads file (es ++ [e]) j ((r.goOn i call).calls j) := by
  by_cases hji : j = i
  · subst hji
    rwa [goOn_self]
  · rw [goOn_other r call hji]
    exact (hseen j).append e

/-- **What a call and the cache know of the file's past.** -/
theorem run_known (h : Reads loads file es r) (hdistinct : Distinct replaced signature file es) :
    (∀ i, Seen loads file es i (r.calls i)) ∧ Kept loads file es r.cache := by
  induction h with
  | refl =>
    refine ⟨fun i => trivial, fun sig value hcache => ?_⟩
    cases hcache
  | @snoc es e r r' hrun hstep ih =>
    have hearlier : es <+: es ++ [e] := List.prefix_append es [e]
    obtain ⟨hseen, hkept⟩ := ih (hdistinct.of_prefix hearlier)
    have hfile : r.file = fileAt file es := run_file hrun
    cases step_cases hstep with
    | replace _ => exact ⟨fun j => (hseen j).append _, hkept.append _⟩
    | clear => exact ⟨fun j => (hseen j).append _, fun sig value hcache => by cases hcache⟩
    | absent i hcall hnone =>
      refine ⟨seen_goOn hseen ?_, hkept.append _⟩
      have hduring : During loads file (es ++ [.stat i]) i es :=
        during_between hrun hstep (by rw [hcall]; exact id) List.prefix_rfl List.prefix_rfl
          List.prefix_rfl
      refine ⟨es, hduring, ?_⟩
      rw [← hfile, Option.map_eq_none_iff.mp hnone]
      rfl
    | statted i hcall hsig =>
      refine ⟨seen_goOn hseen ?_, hkept.append _⟩
      exact ⟨es, List.prefix_rfl, hfile ▸ hsig⟩
    | missed i hcall =>
      refine ⟨seen_goOn hseen ?_, hkept.append _⟩
      have hsaw := (hseen i).append (.lookup i)
      rwa [hcall] at hsaw
    | @hit i sig value hcall hcache =>
      refine ⟨seen_goOn hseen ?_, hkept.append _⟩
      have hsaw := hseen i
      rw [hcall] at hsaw
      obtain ⟨seen, hstat, hsame⟩ := hsaw
      obtain ⟨taken, read, htaken, hread, hsig, hvalue⟩ := hkept sig value hcache
      have hbefore : seen <+: es := (List.prefix_append _ _).trans hstat
      -- the signature is still the one that the text was stored under
      obtain ⟨now, hnow, hend, hheld⟩ := kept_reading_current (hdistinct.of_prefix hearlier)
        htaken hread hbefore hsig hsame
      have hduring : During loads file (es ++ [.lookup i]) i now :=
        during_between hrun hstep (by rw [hcall]; exact id) (hstat.trans hearlier) hnow hend
      refine ⟨now, hduring, ?_⟩
      rw [fileAt, hheld, hvalue]
    | @read i sig hcall =>
      refine ⟨seen_goOn hseen ?_, hkept.append _⟩
      have hsaw := hseen i
      rw [hcall] at hsaw
      obtain ⟨taken, hstat, hsig⟩ := hsaw
      have htaken : taken <+: es := (List.prefix_append _ _).trans hstat
      rcases readFile_cases loads sig r.file with
        ⟨-, ⟨hcome, hsays⟩ | ⟨value, hcome, hsays⟩⟩ | ⟨hraises, hcome⟩
      · rw [hcome]
        have hduring : During loads file (es ++ [.read i]) i es :=
          during_between hrun hstep (by rw [hcall]; exact id) (hstat.trans hearlier) htaken
            List.prefix_rfl
        exact ⟨es, hduring, by rw [← hfile, hsays]⟩
      · rw [hcome]
        exact ⟨taken, es, hstat.trans hearlier, htaken, hearlier, hsig, hfile ▸ hsays⟩
      · rw [hcome]
        exact ⟨es, [], rfl, hfile ▸ hraises⟩
    | @store i sig value hcall =>
      have hsaw := hseen i
      rw [hcall] at hsaw
      obtain ⟨taken, read, hstat, htaken, hread, hsig, hvalue⟩ := hsaw
      have hduring : During loads file (es ++ [.store i]) i read :=
        during_between hrun hstep (by rw [hcall]; exact id) (hstat.trans hearlier) htaken hread
      refine ⟨seen_goOn hseen ⟨read, hduring, hvalue.symm⟩, fun sig' value' hcache => ?_⟩
      cases hcache
      exact ⟨taken, read, htaken, hread.trans hearlier, hsig, hvalue⟩

/-- A read of a file that is not clean ends its call by an exception. -/
theorem raised_of_read {before after : List (Event ι)}
    (hrun : Reads loads file (before ++ .read i :: after) r)
    (hraises : ¬ Clean loads (fileAt file before)) : r.calls i = .raised := by
  obtain ⟨b, b', hbefore, hstep, hafter⟩ := hrun.split
  rw [← run_file hbefore] at hraises
  have hraised : b'.calls i = .raised := by
    cases step_cases hstep with
    | @read _ sig hcall =>
      rw [goOn_self]
      rcases readFile_cases loads sig b.file with ⟨hclean, -⟩ | ⟨-, hcome⟩
      · exact absurd hclean hraises
      · exact hcome
  rw [(run_calls hafter i).1 (by rw [hraised]; trivial), hraised]

/-- An instant of a call that had not begun is no earlier than that. -/
theorem During.after {now before after : List (Event ι)} {b : Reader ι}
    (h : During loads file (before ++ after) i now) (hbefore : Reads loads file before b)
    (hidle : b.calls i = .idle) : before <+: now := by
  obtain ⟨e, more, s, s', hes, hrun, hstep, -, hbegun⟩ := h
  have hnow : now <+: before ++ after := hes ▸ List.prefix_append _ _
  rcases List.prefix_or_prefix_of_prefix (List.prefix_append before after) hnow with hin | hin
  · exact hin
  · obtain ⟨rest, rfl⟩ := hin
    rcases rest with _ | ⟨e', rest⟩
    · exact ⟨[], by simp⟩
    · -- the step at the instant would have begun the call before
      exfalso
      rw [List.append_assoc, List.cons_append] at hes
      obtain ⟨rfl, -⟩ := List.cons_eq_cons.mp (List.append_cancel_left hes)
      obtain ⟨a, a', ha, hstep', hlater⟩ := hbefore.split
      obtain rfl : a = s := ha.unique (fun _ _ _ _ hb hb' => Option.some.inj (hb.symm.trans hb'))
        hrun
      obtain rfl : a' = s' := Option.some.inj (hstep'.symm.trans hstep)
      exact (run_calls hlater i).2 hbegun hidle

/-- A call that began after the last replacement has no choice of files. -/
theorem Linearizable.latestRead (h : Linearizable loads file es r)
    (hrun : Reads loads file es r) : LatestRead loads file es r := by
  rintro i before after b rfl hnone hbefore hidle hover
  obtain ⟨now, hduring, hreturned⟩ := h i hover
  obtain ⟨first, rfl⟩ := hduring.after hbefore hidle
  obtain ⟨e, more, -, -, hes, -⟩ := hduring
  rw [List.append_assoc] at hes
  rw [List.append_cancel_left hes, List.filterMap_append, List.append_eq_nil_iff] at hnone
  have hlast : fileAt file (before ++ after) = fileAt file (before ++ first) := by
    rw [hes, ← List.append_assoc, fileAt, held_append, held_of_unwritten hnone.2]
  rw [hreturned, run_file hrun, hlast]

omit [DecidableEq ι] in
/-- Where every file that comes to stand there is clean, so is every read. -/
theorem cleanReads_of_files (h : ∀ found ∈ file :: es.filterMap replaced, Clean loads found) :
    CleanReads loads file es := by
  rintro before i after rfl
  refine h _ (List.cons_subset_cons _ ?_ (held_mem before))
  rw [List.filterMap_append]
  exact List.subset_append_left _ _

/-- **Cached reads are linearizable, and see the last version, exactly as long as no call comes
to read a file that makes it raise**: bytes that are no text, or a text that `json.loads`
raises something else than a `JSONDecodeError` for. -/
theorem cachedJson_iff (hrun : Reads loads file es r)
    (hdistinct : Distinct replaced signature file es) :
    Linearizable loads file es r ∧ LatestRead loads file es r ↔ CleanReads loads file es := by
  constructor
  · rintro ⟨hlinear, -⟩ before i after rfl
    by_contra hraises
    have hraised := raised_of_read hrun hraises
    obtain ⟨now, -, hreturned⟩ := hlinear i (by rw [hraised]; trivial)
    rw [hraised] at hreturned
    cases hreturned
  · intro hclean
    have hlinear : Linearizable loads file es r := by
      intro i hover
      have hseen := (run_known hrun hdistinct).1 i
      rcases hcall : r.calls i with _ | _ | _ | _ | value | _ <;> rw [hcall] at hover hseen
      · exact hover.elim
      · exact hover.elim
      · exact hover.elim
      · exact hover.elim
      · obtain ⟨now, hduring, rfl⟩ := hseen
        exact ⟨now, hduring, rfl⟩
      · obtain ⟨before, after, hes, hraises⟩ := hseen
        exact absurd (hclean before i after hes) hraises
    exact ⟨hlinear, hlinear.latestRead hrun⟩

/-! ### Two calls and a replacement -/

/-- Reads two texts, and no other. -/
def twoTexts (text : Str) : Loaded :=
  if text = "1".toList then .value (.int 1)
  else if text = "2".toList then .value (.int 2)
  else .decodeError

def oldFile : StateFile := ⟨10, 1, utf8 "1".toList⟩

def newFile : StateFile := ⟨20, 2, utf8 "2".toList⟩

/-- The first call stats the old file and reads the new one; the second finds what it stored,
under the signature of the old file. -/
def crossing : List (Event Bool) :=
  [.stat false, .stat true, .lookup false, .replace (some newFile), .read false, .store false,
    .lookup true]

theorem crossing_linearizable : ∃ r, Reads twoTexts (some oldFile) crossing r ∧
    r.calls true = .returned (some (.int 2)) ∧
      Linearizable twoTexts (some oldFile) crossing r ∧
        LatestRead twoTexts (some oldFile) crossing r := by
  have hrun : Reads twoTexts (some oldFile) crossing _ :=
    Run.cons rfl (Run.cons rfl (Run.cons rfl (Run.cons rfl (Run.cons rfl (Run.cons rfl
      (Run.cons rfl Run.refl))))))
  have hold : Clean twoTexts (some oldFile) :=
    clean_some.mpr ⟨"1".toList, rfl, Loaded.noConfusion⟩
  have hnew : Clean twoTexts (some newFile) :=
    clean_some.mpr ⟨"2".toList, rfl, Loaded.noConfusion⟩
  have hclean : CleanReads twoTexts (some oldFile) crossing := by
    refine cleanReads_of_files fun found hfound => ?_
    have hfiles : found ∈ [some oldFile, some newFile] := hfound
    rcases List.mem_pair.mp hfiles with rfl | rfl
    · exact hold
    · exact hnew
  have hdistinct : Distinct replaced signature (some oldFile) crossing := by
    rw [Distinct]
    decide
  exact ⟨_, hrun, rfl, (cachedJson_iff hrun hdistinct).mpr hclean⟩

/-- A file that is cut off in the middle of a character. -/
def cutFile : StateFile := ⟨10, 1, [0x22, 0xC3]⟩

/-- One call, from its stat to its read. -/
def oneRead : List (Event Unit) := [.stat (), .lookup (), .read ()]

/-- A call that reads it raises. -/
theorem cut_file_raises : ∃ r, Reads twoTexts (some cutFile) oneRead r ∧
    Distinct replaced signature (some cutFile) oneRead ∧
      ¬ (Linearizable twoTexts (some cutFile) oneRead r ∧
        LatestRead twoTexts (some cutFile) oneRead r) := by
  have hrun : Reads twoTexts (some cutFile) oneRead _ :=
    Run.cons rfl (Run.cons rfl (Run.cons rfl Run.refl))
  refine ⟨_, hrun, ?_, fun h => ?_⟩
  · rw [Distinct]
    decide
  · obtain ⟨now, -, hreturned⟩ := h.1 () trivial
    cases hreturned

end IndexState
