/-
The data directories crawls leave behind.

A crawl starts from a directory that any number of earlier crawls, each with a command
line of its own, may have written, however they ended.  All that a later one relies on is
that its frontier can be opened.

* `DataDirectory` — such a directory;
* `SoundIn`, `SoundIn.step` — every step keeps the frontier sound, whoever takes it;
* `DataDirectory.sound` — so the frontier of every directory is;
* `CrawlOf`, `CrawlOf.invariant` — one crawl of such a directory, logged, and the rule for what
  holds all the way.
-/
import MjlSearch.Intake

open Text Machine Policy Runs FrontierQueue CrawlDb

namespace Crawler

variable {lib : Libraries} {cli : Cli} {s t : System lib} {e : Event}

/-- A data directory without a process in it, written by any number of crawls. -/
inductive DataDirectory (lib : Libraries) : System lib → Prop
  | fresh : DataDirectory lib fresh
  | crawled {cli : Cli} {s t : System lib} {es : List Event} (h : DataDirectory lib s)
      (hrun : Run (Step cli) s es t) (hoff : t.process = none) : DataDirectory lib t

/-- The frontier is sound, in the process or as the last one left it. -/
structure SoundIn (lib : Libraries) (s : System lib) : Prop where
  off : s.process = none → SoundDb lib s.db
  on : ∀ p, s.process = some p → Sound lib p.owner.frontier

theorem SoundIn.halt {owner : Owner lib} {bloom : Option lib.seen.Filter}
    (h : SoundDb lib owner.frontier.db) : SoundIn lib { s.halt owner with bloom } :=
  ⟨fun _ => h, fun _ hc => by cases hc⟩

theorem SoundIn.resume {p : Process lib} (h : Sound lib p.owner.frontier) :
    SoundIn lib (s.resume p) :=
  ⟨fun hc => (by cases hc), fun q hq => by
    cases hq
    exact h⟩

theorem SoundIn.proceed {p : Process lib} {called : Called lib} {G : Frontier}
    (h : Sound lib G) (hdb : called.2.frontier.db = G.db)
    (hok : called.1 = .ok () → called.2.frontier = G) : SoundIn lib (s.proceed p called) := by
  rcases called with ⟨_ | _, owner⟩
  · refine @SoundIn.halt _ s owner s.bloom ?_
    rw [show owner.frontier.db = G.db from hdb]
    exact h.db
  · refine SoundIn.resume ?_
    show Sound lib owner.frontier
    rw [show owner.frontier = G from hok rfl]
    exact h

/-- **Every step keeps the frontier sound.** -/
theorem SoundIn.step (hlaws : UrlLaws lib.urls) (h : SoundIn lib s) (hstep : Does cli s e t) :
    SoundIn lib t := by
  cases hstep with
  | @notStarted faults hoff =>
    refine ⟨fun _ => ((h.off hoff).opened faults).1, fun p hp => ?_⟩
    exact absurd hp (by simp [hoff])
  | @started faults frontier reads hoff hopen =>
    exact SoundIn.resume (((h.off hoff).opened faults).2 frontier hopen)
  | ended hon => exact SoundIn.halt (h.on _ hon).db
  | @moved p phase shuttingDown hon =>
    have hp := h.on p hon
    exact SoundIn.resume hp
  | seeded hon hcall =>
    obtain ⟨G, hG, hdb, hok⟩ := hcall
    exact SoundIn.proceed ((h.on _ hon).pushes hlaws hG) hdb hok
  | @popFailed p frontier nowMs hon hnow hpop =>
    exact @SoundIn.halt _ (s.tick nowMs) { p.owner with frontier } s.bloom
      ((h.on _ hon).popped hpop).db
  | poppedNone hon hnow hpop => exact SoundIn.resume ((h.on _ hon).popped hpop)
  | dispatched hon hnow hroom hpop hhost hget =>
    exact SoundIn.resume ((h.on _ hon).popped (popReady_frame hpop))
  | @checked p i visit answer hon hvisit hstage =>
    have hp := h.on p hon
    exact SoundIn.resume hp
  | @fetched p i visit learned answer hon hvisit hstage =>
    have hp := h.on p hon
    exact SoundIn.resume hp
  | @sent p i visit outcome hon hvisit hstage =>
    have hp := h.on p hon
    exact SoundIn.resume hp
  | @absorbed p nowMs faults outcome channel hon hnow hchannel =>
    obtain ⟨G, hG, hdb, hok⟩ := absorb_rule (P := Sound lib)
      (fun F F₁ hF hcached => hF.cached hcached)
      (fun F F₁ _ _ _ hF hdefer => hF.deferred hdefer)
      (fun F F₁ hF hpushes => hF.pushes hlaws hpushes)
      (h.on p hon) (rfl : absorb cli faults p.owner nowMs outcome = (_, _))
    exact SoundIn.proceed hG hdb hok

theorem SoundIn.run (hlaws : UrlLaws lib.urls) (h : SoundIn lib s) {es : List Event}
    (hrun : Run (Step cli) s es t) : SoundIn lib t :=
  hrun.invariant h fun _ _ _ hsound hstep => hsound.step hlaws (step_does hstep)

/-- **The frontier of every data directory is sound.** -/
theorem DataDirectory.sound (hlaws : UrlLaws lib.urls) (h : DataDirectory lib s) :
    s.process = none ∧ SoundIn lib s := by
  induction h with
  | fresh =>
    refine ⟨rfl, fun _ => ?_, fun p hp => by cases hp⟩
    exact ((Good.fresh : Good lib [] Crawler.fresh).off rfl).1
  | crawled _ hrun hoff ih => exact ⟨hoff, ih.2.run hlaws hrun⟩

/-! ### One crawl, logged -/

/-- A step's entry in the log: its event, and which jobs the queue gained and lost. -/
structure Logged where
  event : Event
  pushed : List CrawlJob
  popped : List CrawlJob

/-- A step, logged. -/
def LoggedStep (cli : Cli) (s : System lib) (entry : Logged) (t : System lib) : Prop :=
  Step cli s entry.event t ∧ entry.pushed = pushedJobs lib s.database t.database ∧
    entry.popped = pushedJobs lib t.database s.database

/-- The jobs pushed, step by step. -/
def pushes (log : List Logged) : List CrawlJob := log.flatMap Logged.pushed

/-- The jobs popped, step by step. -/
def pops (log : List Logged) : List CrawlJob := log.flatMap Logged.popped

@[simp] theorem pushes_nil : pushes [] = [] := rfl

@[simp] theorem pops_nil : pops [] = [] := rfl

@[simp] theorem pushes_snoc (log : List Logged) (entry : Logged) :
    pushes (log ++ [entry]) = pushes log ++ entry.pushed := by
  simp [pushes]

@[simp] theorem pops_snoc (log : List Logged) (entry : Logged) :
    pops (log ++ [entry]) = pops log ++ entry.popped := by
  simp [pops]

/-- One crawl of steps that satisfy `Q`: it starts on a data directory, and comes to `t`. -/
structure CrawlOf (Q : System lib → Event → Prop) (cli : Cli) (s : System lib)
    (log : List Logged) (t : System lib) : Prop where
  directory : DataDirectory lib s
  run : ∃ s₁, Step cli s .started s₁ ∧ Run (fun a entry b =>
    (LoggedStep cli a entry b ∧ entry.event ≠ .started) ∧ Q a entry.event) s₁ log t

/-- One crawl. -/
abbrev Crawl (cli : Cli) (s : System lib) (log : List Logged) (t : System lib) : Prop :=
  CrawlOf (fun _ _ => True) cli s log t

theorem CrawlOf.sound (hlaws : UrlLaws lib.urls) {Q : System lib → Event → Prop}
    {log : List Logged} (h : CrawlOf Q cli s log t) : SoundIn lib t := by
  obtain ⟨s₁, hstart, hrun⟩ := h.run
  have hsound := (h.directory.sound hlaws).2.step hlaws (step_does hstart)
  exact hrun.invariant hsound fun _ _ _ ha hs => ha.step hlaws (step_does hs.1.1.1)

/-- A crawl that goes on for one more step. -/
theorem CrawlOf.snoc {Q : System lib → Event → Prop} {log : List Logged}
    (h : CrawlOf Q cli s log t) {e : Event} {u : System lib} (hstep : Step cli t e u)
    (hne : e ≠ .started) (hQ : Q t e) :
    CrawlOf Q cli s (log ++ [{
      event := e
      pushed := pushedJobs lib t.database u.database
      popped := pushedJobs lib u.database t.database }]) u := by
  obtain ⟨s₁, hstart, hrun⟩ := h.run
  exact ⟨h.directory, s₁, hstart, hrun.snoc ⟨⟨⟨hstep, rfl, rfl⟩, hne⟩, hQ⟩⟩

/-- What a crawl leaves behind when its process is gone. -/
theorem CrawlOf.leaves {Q : System lib → Event → Prop} {log : List Logged}
    (h : CrawlOf Q cli s log t) (hoff : t.process = none) : DataDirectory lib t := by
  obtain ⟨s₁, hstart, hrun⟩ := h.run
  have hsteps : Run (Step cli) s₁ (log.map Logged.event) t :=
    hrun.map Logged.event fun _ _ _ hs => hs.1.1.1
  exact .crawled h.directory (Run.cons hstart hsteps) hoff

/-- **The invariant rule for a crawl**, with its log in view. -/
theorem CrawlOf.invariant (hlaws : UrlLaws lib.urls) {Q : System lib → Event → Prop}
    {I : List Logged → System lib → Prop} {log : List Logged} (h : CrawlOf Q cli s log t)
    (h0 : ∀ frontier reads, Sound lib frontier → I [] (s.resume (begin cli s frontier reads)))
    (hstep : ∀ log a entry b, SoundIn lib a → I log a → Turn cli a entry.event b →
      entry.event ≠ .started → entry.pushed = pushedJobs lib a.database b.database →
      entry.popped = pushedJobs lib b.database a.database → Q a entry.event →
      I (log ++ [entry]) b) :
    I log t := by
  obtain ⟨s₁, hstart, hrun⟩ := h.run
  obtain ⟨hoff, hsound⟩ := h.directory.sound hlaws
  have hsound₁ : SoundIn lib s₁ := hsound.step hlaws (step_does hstart)
  have hbegin : I [] s₁ := by
    generalize he : Event.started = e at hstart
    cases step_turn hstart with
    | @started faults frontier reads _ hopen =>
      exact h0 frontier reads (((hsound.off hoff).opened faults).2 frontier hopen)
    | checked hon => rw [hoff] at hon; cases hon
    | _ => cases he
  refine (hrun.invariant_trace (I := fun log a => SoundIn lib a ∧ I log a) ⟨hsound₁, hbegin⟩ ?_).2
  rintro log a entry b ⟨ha, hI⟩ ⟨⟨⟨hs, hpushed, hpopped⟩, hne⟩, hQ⟩
  exact ⟨ha.step hlaws (step_does hs),
    hstep log a entry b ha hI (step_turn hs) hne hpushed hpopped hQ⟩

/-! ### What a step adds -/

theorem database_proceed (p : Process lib) (called : Called lib) :
    (s.proceed p called).database = called.2.frontier.db := by
  rcases called with ⟨_ | _, owner⟩ <;> rfl

/-- What a pushed job comes from: a seed, or the outcome that was absorbed. -/
def Source (lib : Libraries) (cli : Cli) (e : Event) (job : CrawlJob) : Prop :=
  (∃ seed, Seeded lib seed job) ∨
    ∃ nowMs outcome, e = .absorbed nowMs outcome ∧ Queued lib cli outcome job

/-- What a step pushes, and the owner before and after it. -/
structure Gains (cli : Cli) (a : System lib) (e : Event) (b : System lib) (jobs : List CrawlJob)
    (p : Process lib) : Prop where
  perm : (pushedJobs lib a.database b.database).Perm jobs
  admits : ∃ F o, Admits (Source lib cli e) { p.owner with frontier := F } jobs o ∧
    ∀ q, b.process = some q → q.owner.seen = o.seen ∧ q.owner.stats.queued = o.stats.queued

/-- A step that leaves the filter alone, and the queue but for what is popped. -/
theorem Gains.none {a b : System lib} {p : Process lib} (hon : a.process = some p)
    (hdb : ∀ e ∈ b.database.pending.entries, e ∈ p.owner.frontier.db.pending.entries)
    (hsame : ∀ q, b.process = some q → q.owner.seen = p.owner.seen ∧
      q.owner.stats.queued = p.owner.stats.queued) : Gains cli a e b [] p where
  perm := by
    rw [System.database, hon, pushedJobs_eq_nil hdb]
  admits := ⟨p.owner.frontier, p.owner, .refl, hsame⟩

/-- A call of the owner that may push. -/
theorem Gains.called {a : System lib} {p p' : Process lib} {F : Frontier} {P : CrawlJob → Prop}
    {jobs : List CrawlJob} {called : Called lib} (hlaws : UrlLaws lib.urls)
    (hon : a.process = some p) (hwf : Wf lib.urls lib.codecs p.owner.frontier)
    (hqueue : SameQueue p.owner.frontier F)
    (h : Admitted P { p.owner with frontier := F } jobs called)
    (hsource : ∀ job, P job → Source lib cli e job) :
    Gains cli a e (s.proceed p' called) jobs p := by
  obtain ⟨o, hadmits, hdb, hok⟩ := h
  refine ⟨?_, F, o, hadmits.mono hsource, fun q hq => ?_⟩
  · rw [database_proceed, hdb, System.database, hon]
    have hperm := (hadmits.perm hlaws (hqueue.wf hwf)).2.2
    rw [pushedJobs, newEntries, hqueue.pending] at hperm
    exact hperm
  · rcases called with ⟨_ | _, owner⟩
    · cases hq
    · cases hq
      rw [show owner = o from hok rfl]
      exact ⟨rfl, rfl⟩

/-- **What a step of a running crawl adds.** -/
theorem Turn.gains (hlaws : UrlLaws lib.urls) {a b : System lib} (hsound : SoundIn lib a)
    (hturn : Turn cli a e b) {p : Process lib} (hp : a.process = some p) :
    ∃ jobs, Gains cli a e b jobs p := by
  cases hturn with
  | notStarted hoff => rw [hoff] at hp; cases hp
  | started hoff => rw [hoff] at hp; cases hp
  | killed hon =>
    rw [hp] at hon
    cases hon
    exact ⟨[], .none hp (fun _ he => he) fun q hq => by cases hq⟩
  | closed hon _ =>
    rw [hp] at hon
    cases hon
    exact ⟨[], .none hp (fun _ he => he) fun q hq => by cases hq⟩
  | @moved p' phase shuttingDown hon hmoves =>
    rw [hp] at hon
    cases hon
    refine ⟨[], .none hp (fun _ he => he) fun q hq => ?_⟩
    cases hq
    exact ⟨rfl, rfl⟩
  | @seeded p' seed rest faults hon hphase =>
    rw [hp] at hon
    cases hon
    -- a seed and an absorption are the two turns that can add entries
    obtain ⟨jobs, hjobs⟩ := queueSeed_admits faults p.owner seed
    exact ⟨jobs, .called hlaws hp (hsound.on p hp).wf (.refl _) hjobs
      fun job h => Or.inl ⟨seed, h⟩⟩
  | @popFailed p' frontier nowMs hon hnow hopen hpop =>
    rw [hp] at hon
    cases hon
    exact ⟨[], .none hp hpop.pending fun q hq => by cases hq⟩
  | @poppedNone p' frontier nowMs pop hon hnow hopen hpop =>
    rw [hp] at hon
    cases hon
    refine ⟨[], .none hp (popReady_frame hpop).pending fun q hq => ?_⟩
    cases hq
    exact ⟨rfl, rfl⟩
  | @passedOver p' frontier nowMs pop job hon hnow hopen hpop hhost =>
    rw [hp] at hon
    cases hon
    refine ⟨[], .none hp (popReady_frame hpop).pending fun q hq => ?_⟩
    cases hq
    exact ⟨rfl, rfl⟩
  | @dispatched p' frontier nowMs pop get job host cachedRules hon hnow hphase hroom hpop =>
    rw [hp] at hon
    cases hon
    refine ⟨[], .none hp (popReady_frame hpop).pending fun q hq => ?_⟩
    cases hq
    exact ⟨rfl, rfl⟩
  | @checked p' i visit answer hon hvisit hstage =>
    rw [hp] at hon
    cases hon
    refine ⟨[], .none hp (fun _ he => he) fun q hq => ?_⟩
    cases hq
    exact ⟨rfl, rfl⟩
  | @fetched p' i visit learned answer hon hvisit hstage =>
    rw [hp] at hon
    cases hon
    refine ⟨[], .none hp (fun _ he => he) fun q hq => ?_⟩
    cases hq
    exact ⟨rfl, rfl⟩
  | @sent p' i visit outcome hon hvisit hstage =>
    rw [hp] at hon
    cases hon
    refine ⟨[], .none hp (fun _ he => he) fun q hq => ?_⟩
    cases hq
    exact ⟨rfl, rfl⟩
  | @absorbed p' nowMs faults outcome channel hon hnow hphase hchannel =>
    rw [hp] at hon
    cases hon
    obtain ⟨F, jobs, hqueue, hjobs⟩ := @absorb_admits lib cli faults p.owner nowMs outcome
    exact ⟨jobs, .called hlaws hp (hsound.on p hp).wf hqueue hjobs
      fun job h => Or.inr ⟨nowMs, outcome, rfl, h⟩⟩

/-- Without a process, nothing is pushed. -/
theorem Turn.idle {a b : System lib} (hturn : Turn cli a e b) (hoff : a.process = none)
    (hne : e ≠ .started) : b.process = none ∧ pushedJobs lib a.database b.database = [] := by
  cases hturn with
  | @notStarted faults _ =>
    refine ⟨hoff, pushedJobs_eq_nil ?_⟩
    simp only [System.database, hoff]
    rw [(open_frame faults a.db).1]
    exact fun _ he => he
  | started => exact absurd rfl hne
  | _ => simp_all

/-! ### Executing a crawl -/

/-- Whether the event starts a process. -/
def Event.starts : Event → Bool
  | .started => true
  | _ => false

/-- Executes choices and logs them; one that is not possible is passed over. -/
def execLogged (cli : Cli) (s : System lib) : List Choice → List Logged × System lib
  | [] => ([], s)
  | choice :: choices =>
    match step cli s choice with
    | none => execLogged cli s choices
    | some (e, t) =>
      ({ event := e, pushed := pushedJobs lib s.database t.database,
         popped := pushedJobs lib t.database s.database } :: (execLogged cli t choices).1,
        (execLogged cli t choices).2)

theorem execLogged_run {s : System lib} {choices : List Choice}
    (h : (execLogged cli s choices).1.all (fun entry => !entry.event.starts) = true) :
    Run (fun a entry b => LoggedStep cli a entry b ∧ entry.event ≠ .started) s
      (execLogged cli s choices).1 (execLogged cli s choices).2 := by
  induction choices generalizing s with
  | nil => exact Run.refl
  | cons choice choices ih =>
    rw [execLogged] at h ⊢
    cases hstep : step cli s choice with
    | none =>
      rw [hstep] at h
      exact ih h
    | some next =>
      obtain ⟨e, t⟩ := next
      rw [hstep] at h
      dsimp only at h ⊢
      rw [List.all_cons, Bool.and_eq_true] at h
      refine Run.cons ⟨⟨⟨choice, hstep⟩, rfl, rfl⟩, ?_⟩ (ih h.2)
      intro he
      have hnot := h.1
      rw [show e = .started from he] at hnot
      cases hnot

/-- A crawl of a new data directory that executes these choices. -/
theorem crawl_exec {Q : System lib → Event → Prop} (hQ : ∀ a e, Q a e) {s₁ : System lib}
    {choices : List Choice}
    (hstart : step cli (fresh : System lib) (.start noFaults true true) = some (.started, s₁))
    (h : (execLogged cli s₁ choices).1.all (fun entry => !entry.event.starts) = true) :
    CrawlOf Q cli fresh (execLogged cli s₁ choices).1 (execLogged cli s₁ choices).2 :=
  ⟨.fresh, s₁, ⟨_, hstart⟩, (execLogged_run h).imp fun a entry _ hs => ⟨hs, hQ a entry.event⟩⟩

/-- The crawler, just started on a new data directory. -/
def startedFresh (lib : Libraries) (cli : Cli) : System lib :=
  (step cli fresh (.start noFaults true true)).elim fresh Prod.snd

end Crawler
