import ClockSynth.Proofs.Session

/-!
# What a registry shows of its history

A family is filed under its id, in the place of the one before it. So the ids stand in the order in
which each came first, and a registry finds the last family filed under an id
(`Registry.Reflects`). A run of a session files the families that it registers with success
(`Run.families_filed`). Plans and problems keep the family that they started with: all that does not
concern a plan can be left out of a run, registrations included, and the calls to the plan answer
and write the same (`Run.concerning`).
-/

namespace ClockSynth

/-- The last of these families under its id. -/
def Family.LatestIn (f : Family) (filed : List Family) : Prop :=
  ∃ before after, filed = before ++ f :: after ∧ ∀ g ∈ after, g.id ≠ f.id

namespace Registry

/-- What a registry shows once these families were filed, one after the other. -/
structure Reflects (r : Registry) (filed : List Family) : Prop where
  /-- Each id has the place where it came first. -/
  ids : r.families.map Family.id = (filed.map Family.id).eraseDups
  distinct : (r.families.map Family.id).Nodup
  find_ok : ∀ id f, r.find id = .ok f ↔ f.id = id ∧ f.LatestIn filed
  find_error : ∀ id e, r.find id = .error e ↔ e = .unknownFamily id ∧ ∀ f ∈ filed, f.id ≠ id
  listed : ∀ f, f ∈ r.families ↔ r.find f.id = .ok f

/-- What the record of a registry holds once these families were filed. -/
structure Filed (r : Registry) (filed : List Family) : Prop where
  keys : r.byId.keys = (filed.map Family.id).eraseDups
  latest : ∀ id, r.byId.get? id = filed.reverse.find? (·.id == id)

variable {r r' : Registry} {filed : List Family} {f : Family} {id : String}

theorem register_eq_error_iff {e : Error} :
    r.register f = .error e
      ↔ f.slotLetters.length.toFloat < f.limits.maxOutputs
        ∧ e = .unnamedSlots f.id f.slotLetters.length f.limits.maxOutputs := by
  unfold register lacksLetters
  split <;> simp_all [eq_comm]

theorem byId_of_register (h : r.register f = .ok r') : r'.byId = r.byId.insert f.id f := by
  unfold register at h
  split at h
  · cases h
  · cases h
    rfl

theorem filed_empty : Filed ⟨∅⟩ [] where
  keys := rfl
  latest _ := rfl

theorem eraseDups_concat (ids : List String) (id : String) :
    (ids ++ [id]).eraseDups = if id ∈ ids then ids.eraseDups else ids.eraseDups ++ [id] := by
  rw [List.eraseDups_append]
  by_cases h : id ∈ ids <;> simp [List.removeAll, h, List.eraseDups_cons]

theorem Filed.register (h : r.Filed filed) (hr : r.register f = .ok r') :
    r'.Filed (filed ++ [f]) where
  keys := by
    have hmem : f.id ∈ r.byId.keys ↔ f.id ∈ filed.map Family.id := by
      rw [h.keys, List.mem_eraseDups]
    rw [byId_of_register hr, List.map_append, List.map_singleton, eraseDups_concat, ← h.keys]
    split
    · rename_i hid
      exact Record.keys_insert_of_mem f (hmem.2 hid)
    · rename_i hid
      exact Record.keys_insert_of_not_mem f (mt hmem.1 hid)
  latest id := by
    rw [byId_of_register hr, List.reverse_append, List.reverse_singleton, List.singleton_append,
      List.find?_cons]
    by_cases hid : f.id = id
    · subst hid
      rw [Record.get?_insert_self, beq_self_eq_true]
    · rw [Record.get?_insert_of_ne _ _ (Ne.symm hid), beq_false_of_ne hid, h.latest]

/-- The built-in family is registered as any other. -/
theorem filed_builtin : Filed .builtin [Family.ecp5] := by
  have hr : register ⟨∅⟩ Family.ecp5 = .ok .builtin := if_neg (by decide)
  exact filed_empty.register hr

theorem Filed.get?_eq_some_iff (h : r.Filed filed) :
    r.byId.get? id = some f ↔ f.id = id ∧ f.LatestIn filed := by
  rw [h.latest, List.find?_eq_some_iff_append, beq_iff_eq]
  refine and_congr_right fun hid => ?_
  subst hid
  constructor
  · rintro ⟨after, before, hfiled, hafter⟩
    refine ⟨before.reverse, after.reverse, ?_, fun g hg => ?_⟩
    · rw [← List.reverse_reverse filed, hfiled]
      simp
    · simpa using hafter g (List.mem_reverse.1 hg)
  · rintro ⟨before, after, rfl, hafter⟩
    refine ⟨after.reverse, before.reverse, by simp, fun g hg => ?_⟩
    simpa using hafter g (List.mem_reverse.1 hg)

theorem Filed.get?_eq_none_iff (h : r.Filed filed) :
    r.byId.get? id = none ↔ ∀ f ∈ filed, f.id ≠ id := by
  rw [h.latest, List.find?_eq_none]
  simp

theorem find_eq_ok_iff : r.find id = .ok f ↔ r.byId.get? id = some f := by
  unfold find
  cases r.byId.get? id <;> simp

theorem find_eq_error_iff {e : Error} :
    r.find id = .error e ↔ e = .unknownFamily id ∧ r.byId.get? id = none := by
  unfold find
  cases r.byId.get? id <;> simp [eq_comm]

/-- Each family of the registry is filed under its own id. -/
theorem Filed.families_ids (h : r.Filed filed) : r.families.map Family.id = r.byId.keys := by
  unfold families Record.values Record.keys
  rw [List.map_map]
  refine List.map_congr_left fun field hfield => ?_
  exact (h.get?_eq_some_iff.1 (Record.get?_eq_some_iff.2 hfield)).1

theorem Filed.mem_families_iff (h : r.Filed filed) : f ∈ r.families ↔ r.find f.id = .ok f := by
  rw [find_eq_ok_iff]
  unfold families Record.values
  rw [List.mem_map]
  constructor
  · rintro ⟨⟨key, g⟩, hfield, rfl⟩
    have hget := Record.get?_eq_some_iff.2 hfield
    rwa [← (h.get?_eq_some_iff.1 hget).1] at hget
  · exact fun hget => ⟨_, Record.get?_eq_some_iff.1 hget, rfl⟩

theorem Filed.reflects (h : r.Filed filed) : r.Reflects filed where
  ids := h.families_ids.trans h.keys
  distinct := h.families_ids ▸ r.byId.keys_nodup
  find_ok _ _ := find_eq_ok_iff.trans h.get?_eq_some_iff
  find_error _ _ := find_eq_error_iff.trans (and_congr_right fun _ => h.get?_eq_none_iff)
  listed _ := h.mem_families_iff

end Registry

/-- The command looks at no registered family, and at no plan but the one of this name. -/
def Command.concerns (id : String) : Command → Bool
  | .registerFamily _ | .createPlan _ _ => false
  | .plan other _ => other == id
  | _ => true

namespace Session

/-- The family that was registered, if it was taken. -/
def Entry.filed? (e : Entry) : Option Family :=
  match e.command, e.result with
  | .registerFamily f, .ok _ => some f
  | _, _ => none

/-- The families that were taken, in the order of their registration. -/
def filed (entries : List Entry) : List Family :=
  entries.filterMap Entry.filed?

variable {s s' t : Session} {entries : List Entry} {id : String}

/-- A command files the family of its entry, or leaves the families as they are. -/
theorem families_run (s : Session) (clock : Clock) (c : Command) :
    (∃ f, (s.entry clock c).filed? = some f
        ∧ s.families.register f = .ok (s.run clock c).1.families)
      ∨ (s.entry clock c).filed? = none ∧ (s.run clock c).1.families = s.families := by
  by_cases hc : ∃ f, c = .registerFamily f
  · obtain ⟨f, rfl⟩ := hc
    cases hr : s.families.register f with
    | error e =>
      have hrun := run_registerFamily_of_error hr clock
      exact .inr ⟨by simp [Entry.filed?, entry, hrun], by rw [hrun]⟩
    | ok r =>
      have hrun := run_registerFamily_of_ok hr clock
      exact .inl ⟨f, by simp [Entry.filed?, entry, hrun], by rw [hrun, hr]⟩
  · have hne : ∀ f, c ≠ .registerFamily f := fun f hf => hc ⟨f, hf⟩
    refine .inr ⟨?_, families_run_of_ne s clock hne⟩
    cases c <;> simp_all [Entry.filed?, entry]

theorem Run.families_filed (h : Run s entries t) {families : List Family}
    (hs : s.families.Filed families) : t.families.Filed (families ++ filed entries) := by
  induction h generalizing families with
  | nil => simpa [filed] using hs
  | cons clock c _ ih =>
    rcases families_run _ clock c with ⟨f, hf, hr⟩ | ⟨hf, hr⟩
    · have hnext := ih (hs.register hr)
      simpa [filed, hf] using hnext
    · have hnext := ih (hr ▸ hs)
      simpa [filed, hf] using hnext

/-- The sessions have the same log, and the same plan under this name. -/
structure Alike (id : String) (s s' : Session) : Prop where
  log : s.log = s'.log
  plan : s.plans.get? id = s'.plans.get? id

theorem log_run_of_not_concerns (s : Session) (clock : Clock) {c : Command}
    (hc : c.concerns id = false) : (s.run clock c).1.log = s.log := by
  rw [log_run]
  cases c <;> simp_all [Command.concerns, Log.after]

theorem Alike.run_of_not_concerns (h : Alike id s s') (clock : Clock) {c : Command}
    (hc : c.concerns id = false) (hid : ∀ options, c ≠ .createPlan id options) :
    Alike id (s.run clock c).1 s' where
  log := (log_run_of_not_concerns s clock hc).trans h.log
  plan := by
    have hcall : ∀ call, c ≠ .plan id call := by
      rintro call rfl
      simp [Command.concerns] at hc
    exact (get?_run_of_ne s clock hid hcall).trans h.plan

theorem Alike.run_of_concerns (h : Alike id s s') (clock : Clock) {c : Command}
    (hc : c.concerns id = true) :
    s.entry clock c = s'.entry clock c ∧ Alike id (s.run clock c).1 (s'.run clock c).1 := by
  obtain ⟨hlog, hplan⟩ := h
  cases c with
  | registerFamily f => simp [Command.concerns] at hc
  | createPlan other options => simp [Command.concerns] at hc
  | configureLog change => exact ⟨rfl, congrArg (Log.configure · change) hlog, hplan⟩
  | resetLog => exact ⟨rfl, rfl, hplan⟩
  | write event => exact ⟨by simp [entry, Session.run, step, hlog], hlog, hplan⟩
  | solve problem cap => exact ⟨by simp [entry, Session.run, step, hlog], hlog, hplan⟩
  | plan other call =>
    obtain rfl : other = id := by simpa [Command.concerns] using hc
    simp only [entry, Session.run, step, callPlan, hplan, hlog]
    split
    · exact ⟨rfl, hlog, hplan⟩
    · exact ⟨rfl, rfl, by simp [Record.get?_insert_self]⟩

theorem Run.concerning (h : Run s entries t) (hs : Alike id s s')
    (hid : ∀ e ∈ entries, ¬ e.Creates id) :
    ∃ t', Run s' (entries.filter (·.command.concerns id)) t' ∧ Alike id t t' := by
  induction h generalizing s' with
  | nil s => exact ⟨s', .nil s', hs⟩
  | @cons s t entries clock c _ ih =>
    rw [List.forall_mem_cons] at hid
    cases hc : c.concerns id with
    | false =>
      rw [List.filter_cons_of_neg (by simp [entry, hc])]
      have hcreate : ∀ options, c ≠ .createPlan id options := fun options h => hid.1 ⟨options, h⟩
      exact ih (hs.run_of_not_concerns clock hc hcreate) hid.2
    | true =>
      obtain ⟨hentry, hnext⟩ := hs.run_of_concerns clock hc
      obtain ⟨t', ht, halike⟩ := ih hnext hid.2
      rw [List.filter_cons_of_pos (by simpa [entry] using hc), hentry]
      exact ⟨t', .cons clock c ht, halike⟩

/-- What registering does to a session: a family that lacks letters is refused, and then all stays
as it is. No plan that is there notices a registration, nor does a problem that names no family. -/
structure Registers (s : Session) : Prop where
  refused_iff : ∀ clock f e, (s.run clock (.registerFamily f)).2.1 = .error e
    ↔ f.slotLetters.length.toFloat < f.limits.maxOutputs
      ∧ e = .unnamedSlots f.id f.slotLetters.length f.limits.maxOutputs
  untouched : ∀ clock f e, (s.run clock (.registerFamily f)).2.1 = .error e →
    (s.run clock (.registerFamily f)).1 = s
  plan : ∀ id later t, Run s later t → (∀ e ∈ later, ¬ e.Creates id) →
    ∃ t', Run s (later.filter (·.command.concerns id)) t' ∧ Alike id t t'
  default : ∀ clock inputFrequency requests dynamicPhase cap f,
    ({} : Session).families.find Family.ecp5.id = .ok f →
    (s.run clock (.solve { inputFrequency, requests, dynamicPhase } cap)).2.1
      = .ok (.outcome (Problem.solve { family := f, inputFrequency, requests, dynamicPhase } cap))

theorem registers (s : Session) : s.Registers where
  refused_iff clock f e := by
    rw [← Registry.register_eq_error_iff]
    rcases hr : s.families.register f with e' | r
    · simp [run_registerFamily_of_error hr]
    · simp [run_registerFamily_of_ok hr]
  untouched clock f e h := by
    rcases hr : s.families.register f with e' | r
    · rw [run_registerFamily_of_error hr]
    · simp [run_registerFamily_of_ok hr] at h
  plan _ _ _ h hid := h.concerning ⟨rfl, rfl⟩ hid
  default clock _ _ _ _ f h := by
    have hload : ({} : Session).families.find Family.ecp5.id = .ok Family.ecp5 :=
      Registry.find_eq_ok_iff.2 (by decide)
    obtain rfl := Except.ok.inj (hload.symm.trans h)
    rfl

/-- After any run, the registry shows the built-in family and those that the run registered with
success: its list has one family for each id, in the order in which the ids came first, and it finds
the last one of an id. All of them have letters for what they allow, and from there registering does
what it should. -/
theorem Run.registry (h : Run {} entries t) :
    t.families.Reflects (Family.ecp5 :: filed entries)
      ∧ (t.families.families.map Family.id).head? = some Family.ecp5.id
      ∧ (∀ f ∈ t.families.families, ¬ f.slotLetters.length.toFloat < f.limits.maxOutputs)
      ∧ t.Registers := by
  have hreflects := (h.families_filed Registry.filed_builtin).reflects
  refine ⟨hreflects, ?_, fun f hf => ?_, t.registers⟩
  · rw [hreflects.ids, List.singleton_append, List.map_cons, List.eraseDups_cons, List.head?_cons]
  · simpa [Registry.lacksLetters] using
      h.accepted accepted_builtin f.id f ((hreflects.listed f).1 hf)

/-- The plan is there when the built-in family is to be replaced, first in vain, then by another. -/
def replacing : List Command :=
  [.registerFamily { Family.ecp5 with id := "twin" }, .createPlan "clk" {},
    .registerFamily { Family.ecp5 with slotLetters := ["P"] }, .registerFamily Family.small]

theorem exists_replacing :
    ∃ entries t, entries.map Entry.command = replacing ∧ Run {} entries t
      ∧ filed entries = [{ Family.ecp5 with id := "twin" }, Family.small] := by
  refine ⟨_, _, ?_, .cons default (.registerFamily { Family.ecp5 with id := "twin" }) <|
    .cons default (.createPlan "clk" {}) <|
    .cons default (.registerFamily { Family.ecp5 with slotLetters := ["P"] }) <|
    .cons default (.registerFamily Family.small) <| .nil _, ?_⟩
  · rfl
  · decide +kernel

theorem registry_replaced :
    ∃ entries t, entries.map Entry.command = replacing ∧ Run {} entries t
      ∧ t.families.families.map Family.id = ["ecp5", "twin"]
      ∧ t.families.find "ecp5" = .ok Family.small
      ∧ t.families.find "twin" = .ok { Family.ecp5 with id := "twin" }
      ∧ t.families.find "other" = .error (.unknownFamily "other")
      ∧ Family.small ∈ t.families.families ∧ Family.ecp5 ∉ t.families.families
      ∧ t.Registers := by
  obtain ⟨entries, t, hcommands, hrun, hfiled⟩ := exists_replacing
  obtain ⟨hreflects, -, -, hregisters⟩ := hrun.registry
  rw [hfiled] at hreflects
  have hsmall : t.families.find "ecp5" = .ok Family.small :=
    (hreflects.find_ok _ _).2 ⟨rfl, [Family.ecp5, _], [], rfl, by simp⟩
  have htwin : t.families.find "twin" = .ok { Family.ecp5 with id := "twin" } :=
    (hreflects.find_ok _ _).2 ⟨rfl, [Family.ecp5], [Family.small], rfl, by decide⟩
  have hother : t.families.find "other" = .error (.unknownFamily "other") :=
    (hreflects.find_error _ _).2 ⟨rfl, by decide⟩
  refine ⟨entries, t, hcommands, hrun, hreflects.ids.trans (by decide), hsmall, htwin, hother,
    (hreflects.listed _).2 hsmall, fun hlisted => ?_, hregisters⟩
  have hsame := (hreflects.listed _).1 hlisted
  rw [show Family.ecp5.id = "ecp5" from rfl, hsmall] at hsame
  exact absurd (Except.ok.inj hsame) (by decide +kernel)

end Session

end ClockSynth
