import FlureeDb.Consensus.Heads

/-!
The head watermarks of a node. The adapter reports every published commit to
the ledger cache, which keeps the largest commit time seen for each ledger; a
cached ledger behind its mark is stale. The marks are right as long as every
head that moves up is announced by an event. Two commands move heads without
one: a compare-and-set of a commit head and a reset to a later commit.
-/

namespace FlureeDb.Consensus

open FlureeDb.Core Lib

variable (marks : HashMap String ℤ)

/-- `LedgerManager::note_head_advance`. -/
def noteHeadAdvance (ledgerId : String) (commitT : ℤ) : HashMap String ℤ :=
  match marks.lookup ledgerId with
  | some recorded => if recorded < commitT then marks.insert ledgerId commitT else marks
  | none => marks.insert ledgerId commitT

def reportEvent : NameServiceEvent → HashMap String ℤ
  | .ledgerCommitPublished ledgerId _ commitT => noteHeadAdvance marks ledgerId commitT
  | _ => marks

def eventOf (step : AppliedStep) : Option NameServiceEvent :=
  eventFor step.input.command step.response

def watermarks (steps : List AppliedStep) : HashMap String ℤ :=
  (steps.filterMap eventOf).foldl reportEvent ∅

def Marked (ledgerId : String) (t : ℤ) : Prop :=
  ∃ mark, marks.lookup ledgerId = some mark ∧ t ≤ mark

variable {marks} {ledgerId a : String} {t : ℤ}

theorem Marked.mono {t' : ℤ} (h : Marked marks ledgerId t') (ht : t ≤ t') :
    Marked marks ledgerId t := by
  obtain ⟨mark, hmark, hle⟩ := h
  exact ⟨mark, hmark, ht.trans hle⟩

theorem marked_noteHeadAdvance (marks : HashMap String ℤ) (ledgerId : String) (t : ℤ) :
    Marked (noteHeadAdvance marks ledgerId t) ledgerId t := by
  unfold noteHeadAdvance
  cases hmark : marks.lookup ledgerId with
  | none => exact ⟨t, by simp, le_rfl⟩
  | some recorded =>
    dsimp only
    split
    · exact ⟨t, by simp, le_rfl⟩
    · exact ⟨recorded, hmark, by omega⟩

theorem Marked.noteHeadAdvance (h : Marked marks a t) (ledgerId : String) (commitT : ℤ) :
    Marked (noteHeadAdvance marks ledgerId commitT) a t := by
  obtain ⟨mark, hmark, hle⟩ := h
  by_cases ha : a = ledgerId
  · subst a
    by_cases hlt : mark < commitT
    · exact (marked_noteHeadAdvance marks ledgerId commitT).mono (by omega)
    · exact ⟨mark, by simp [noteHeadAdvance, hmark, hlt], hle⟩
  · refine ⟨mark, ?_, hle⟩
    unfold Consensus.noteHeadAdvance
    cases marks.lookup ledgerId with
    | none => simp [ha, hmark]
    | some =>
      dsimp only
      split
      · simp [ha, hmark]
      · exact hmark

theorem Marked.reportEvent (h : Marked marks a t) (event : NameServiceEvent) :
    Marked (reportEvent marks event) a t := by
  cases event with
  | ledgerCommitPublished ledgerId commitId commitT => exact h.noteHeadAdvance ledgerId commitT
  | ledgerIndexPublished | ledgerRetracted => exact h

theorem watermarks_concat (steps : List AppliedStep) (step : AppliedStep) :
    watermarks (steps ++ [step]) = (eventOf step).toList.foldl reportEvent (watermarks steps) := by
  unfold watermarks
  cases h : eventOf step with
  | none | some => simp [h]

/-! ### Announcing heads -/

/-- A step takes the head at `key` to a later commit, or gives the branch its
first one. -/
structure Raises (s s' : NameServiceState) (key : RefKey) (new : RefEntry) : Prop where
  found : s'.refs.lookup key = some new
  later : ∀ old, s.refs.lookup key = some old → old.t < new.t

variable (s : NameServiceState)

/-- Every head that an entry of the log raises is published. -/
def Announced (e : LogEntry) : Prop :=
  ∀ key new, Raises s (applyEntry s e).1 key new →
    eventFor e.command (applyEntry s e).2 =
      some (.ledgerCommitPublished key.ledgerId new.head new.t)

/-- A compare-and-set of a commit head that the branch accepts. -/
def SwapsHead (args : RefCas) : Prop :=
  args.kind = .commitHead ∧ args.new.id ≠ none ∧
    (⟨args.ledgerId, args.branch⟩ : RefKey) ∉ s.retracted ∧
    ∃ current, currentRefValue s ⟨args.ledgerId, args.branch⟩ .commitHead = some current ∧
      expectedMatches args.expected current = true ∧ current.t < args.new.t

/-- The commands that move a head up and publish nothing: an accepted
compare-and-set of a commit head, and a reset of a live branch to a first or
later commit. -/
def Unannounced : Command → Prop
  | .compareAndSetRef args => SwapsHead s args
  | .resetHead ledgerId branch snapshot _ =>
    s.Registered ⟨ledgerId, branch⟩ ∧ (⟨ledgerId, branch⟩ : RefKey) ∉ s.retracted ∧
      snapshot.commitHeadId ≠ none ∧
      ∀ old, s.refs.lookup ⟨ledgerId, branch⟩ = some old → old.t < snapshot.commitT
  | _ => False

variable {s}

theorem swapsHead_iff {logIndex : ℕ} {args : RefCas} (hkind : args.kind = .commitHead) :
    (applyCompareAndSetRef s logIndex args).2 = .refCasUpdated ↔ SwapsHead s args := by
  rw [applyCompareAndSetRef, SwapsHead, hkind]
  cases hcurrent : currentRefValue s ⟨args.ledgerId, args.branch⟩ .commitHead with
  | none => simp
  | some current =>
    -- the guards of the source, in its order
    by_cases hretracted : (⟨args.ledgerId, args.branch⟩ : RefKey) ∈ s.retracted
    · simp [hretracted]
    cases hexpected : expectedMatches args.expected current with
    | false => simp [hretracted, hexpected]
    | true =>
      by_cases hlater : current.t < args.new.t
      · cases hid : args.new.id with
        | none | some => simp [hretracted, hexpected, RefKind.monotonic, hlater]
      · simp [hretracted, RefKind.monotonic, hlater]

theorem Raises.elim_same {P : Prop} {s s' : NameServiceState} {key : RefKey} {new old : RefEntry}
    (h : Raises s s' key new) (hold : s.refs.lookup key = some old) (ht : new.t = old.t) : P := by
  have hlt := h.later old hold
  omega

variable {e : LogEntry}

theorem announced_of_not_unannounced (hs : WellFormed s) (he : ¬ Unannounced s e.command) :
    Announced s e := by
  intro key new hraises
  have heffect := applyEntry_headEffect hs e
  obtain ⟨index, command, order⟩ := e
  generalize hresponse : (applyEntry s ⟨index, command, order⟩).2 = response at heffect ⊢
  have hfound := hraises.found
  -- every case ends at the branch written or at a head that did not move
  cases heffect with
  | kept hrefs => exact hraises.elim_same (hrefs ▸ hfound) rfl
  | @advanced _ _ a head t millis hadvances hmono hrefs =>
    rw [hrefs, HashMap.lookup_insert_eq] at hfound
    split at hfound
    · subst key
      cases hfound
      cases hadvances with
      | applied => rfl
      | swapped args head hkind => exact absurd ((swapsHead_iff hkind).mp hresponse) he
    · exact hraises.elim_same hfound rfl
  | @published _ _ a entry index millis hpublishes hentry hindex hrefs =>
    rw [hrefs, HashMap.lookup_insert_eq] at hfound
    split at hfound
    · subst key
      cases hfound
      exact hraises.elim_same hentry rfl
    · exact hraises.elim_same hfound rfl
  | @forked args source hnew hsource hrefs =>
    rw [hrefs, lookup_forkedRefs] at hfound
    split at hfound
    · subst key
      cases hfound
      rfl
    split at hfound
    · subst key
      cases hfound
      exact hraises.elim_same hsource rfl
    · exact hraises.elim_same hfound rfl
  | removed hback hchildren hrefs =>
    rw [hrefs, lookup_removedRefs] at hfound
    split at hfound
    · cases hfound
    split at hfound
    · obtain ⟨old, hold, rfl⟩ := Option.map_eq_some_iff.mp hfound
      exact hraises.elim_same hold rfl
    · exact hraises.elim_same hfound rfl
  | erased hknown hlive hsnapshot hrefs =>
    rw [hrefs, HashMap.lookup_erase_eq] at hfound
    split at hfound
    · cases hfound
    · exact hraises.elim_same hfound rfl
  | @rewritten ledgerId branch snapshot millis released head hknown hlive hsnapshot hrefs =>
    rw [hrefs, HashMap.lookup_insert_eq] at hfound
    split at hfound
    · subst key
      cases hfound
      have hhead : snapshot.commitHeadId ≠ none := by simp [hsnapshot]
      exact absurd ⟨hknown, hlive, hhead, hraises.later⟩ he
    · exact hraises.elim_same hfound rfl

theorem Unannounced.not_announced (hs : WellFormed s) (he : Unannounced s e.command) :
    ¬ Announced s e := by
  intro hannounced
  have htransition := applyEntry_transition hs e
  obtain ⟨index, command, order⟩ := e
  cases command <;> try exact he.elim
  case compareAndSetRef args =>
    have hresponse : (applyEntry s ⟨index, .compareAndSetRef args, order⟩).2 = .refCasUpdated :=
      (swapsHead_iff he.1).mpr he
    unfold Announced at hannounced
    rw [hresponse] at hannounced htransition
    generalize (applyEntry s ⟨index, .compareAndSetRef args, order⟩).1 = s' at *
    cases htransition with
    | refused hrefusal => cases hrefusal
    | peripheral hcommand => cases hcommand
    | indexSwapped hkind => cases hkind.symm.trans he.1
    | commitSwapped hkind hknown hlive hhead hmono =>
      have hevent := hannounced ⟨_, _⟩ _ ⟨Finmap.lookup_insert _, hmono⟩
      cases hevent
  case resetHead ledgerId branch snapshot millis =>
    obtain ⟨hknown, hlive, hsome, hlater⟩ := he
    obtain ⟨released, hresponse⟩ : ∃ released,
        (applyEntry s ⟨index, .resetHead ledgerId branch snapshot millis, order⟩).2 =
          .headReset (formatLedgerId ledgerId branch) released := by
      change ∃ released, (resetHead s ledgerId branch snapshot millis).2 = _
      rw [resetHead, knows_iff.mpr hknown]
      simp only [hlive]
      cases snapshot.commitHeadId with
      | none | some => exact ⟨_, rfl⟩
    unfold Announced at hannounced
    rw [hresponse] at hannounced htransition
    generalize (applyEntry s ⟨index, .resetHead ledgerId branch snapshot millis, order⟩).1 = s' at *
    generalize hgiven : Response.headReset (formatLedgerId ledgerId branch) released = response
      at htransition
    cases htransition with
    | refused hrefusal =>
      subst hgiven
      cases hrefusal
    | markerConsumed | indexPublished => cases hgiven
    | peripheral hcommand => cases hcommand
    | headErased hknown hlive hsnapshot => exact hsome hsnapshot
    | headRewritten =>
      have hevent := hannounced ⟨_, _⟩ _ ⟨Finmap.lookup_insert _, hlater⟩
      cases hevent

/-! ### Marks along a run -/

def HeadsMarked (marks : HashMap String ℤ) (s : NameServiceState) : Prop :=
  ∀ key entry, s.refs.lookup key = some entry → Marked marks key.ledgerId entry.t

theorem HeadsMarked.step {steps : List AppliedStep} (hs : HeadsMarked (watermarks steps) s)
    (he : Announced s e) :
    HeadsMarked (watermarks (steps ++ [Run.stepOf applyEntry s e])) (applyEntry s e).1 := by
  intro key entry hentry
  have hevent : eventOf (Run.stepOf applyEntry s e) = eventFor e.command (applyEntry s e).2 := rfl
  rw [watermarks_concat, hevent]
  by_cases hraises : ∀ old, s.refs.lookup key = some old → old.t < entry.t
  · rw [he key entry ⟨hentry, hraises⟩]
    exact marked_noteHeadAdvance _ _ _
  · -- the head did not rise, so its old mark still covers it
    push Not at hraises
    obtain ⟨old, hold, hle⟩ := hraises
    have hmarked := (hs key old hold).mono hle
    cases eventFor e.command (applyEntry s e).2 with
    | none => exact hmarked
    | some event => exact hmarked.reportEvent event

theorem replay_headsMarked {log : List LogEntry}
    (hlog : ∀ step ∈ replaySteps log, ¬ Unannounced step.before step.input.command) :
    HeadsMarked (watermarks (replaySteps log)) (replay log) := by
  induction log using List.reverseRecOn with
  | nil =>
    intro key entry hentry
    simp [replay, NameServiceState.new] at hentry
  | append_singleton log e ih =>
    rw [replaySteps_concat, List.forall_mem_append, List.forall_mem_singleton] at hlog
    rw [replaySteps_concat, replay_concat]
    exact (ih hlog.1).step (announced_of_not_unannounced (replay_wellFormed log) hlog.2)

/-- **The watermark is lossless exactly where heads move by announced commands.**
In a reachable state an entry publishes every head it raises if and only if it
is neither an accepted compare-and-set of a commit head nor an accepted reset to
a first or later commit; and along a log without such entries no head gets ahead
of its mark. -/
theorem head_watermark_lossless (log : List LogEntry) :
    (∀ e, Announced (replay log) e ↔ ¬ Unannounced (replay log) e.command) ∧
    ((∀ step ∈ replaySteps log, ¬ Unannounced step.before step.input.command) →
      HeadsMarked (watermarks (replaySteps log)) (replay log)) := by
  have hs := replay_wellFormed log
  refine ⟨fun e => ⟨fun hannounced hun => ?_, announced_of_not_unannounced hs⟩,
    replay_headsMarked⟩
  exact hun.not_announced hs hannounced

/-- The first commit of a branch is marked when a worker applies it. -/
theorem head_watermark_lossless_born :
    Announced (replay Sample.born) (Sample.entry 4 (.applyHead (Sample.head 1 2))) ∧
      HeadsMarked (watermarks (replaySteps Sample.born)) (replay Sample.born) := by
  obtain ⟨hannounced, hmarked⟩ := head_watermark_lossless Sample.born
  refine ⟨(hannounced _).mpr fun h => h, hmarked ?_⟩
  intro step hstep
  rcases hstep with _ | ⟨_, _ | ⟨_, _ | ⟨_, h⟩⟩⟩
  · exact fun h => h
  · exact fun h => h
  · exact fun h => h
  · cases h

namespace Sample

noncomputable def swapped : List LogEntry :=
  created ++ [entry 2 (.compareAndSetRef ⟨"db", "main", .commitHead, none, ⟨some (cid 7), 1⟩, 0⟩)]

end Sample

/-- A commit head set by compare-and-set has no mark: the branch is born at
commit time 1, nothing is published, and its ledger is not marked at all. -/
theorem head_without_watermark :
    (∃ entry, (replay Sample.swapped).refs.lookup ⟨"db", "main"⟩ = some entry ∧ entry.t = 1) ∧
      (replaySteps Sample.swapped).filterMap eventOf = [] ∧
      (watermarks (replaySteps Sample.swapped)).lookup "db:main" = none :=
  ⟨⟨_, rfl, rfl⟩, rfl, rfl⟩

end FlureeDb.Consensus
