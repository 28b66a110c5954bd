import AccessLayer.Layer.Session
import AccessLayer.Proofs.Except

/-!
# How tasks end

A task that runs in a session ends with a result or a failure and leaves a session. What it did is
read off its text: one rule for each way to put tasks together and one for each basic task.

* `Task.Ends`, `Task.Gives`: how a task ends, and that it succeeds.
* `Task.ends_writeFile`, `Task.ends_removeFile`, `Task.gives_listDir`: the basic tasks.
* `Task.Quiet`: a task that changes neither files nor the report, however it ends.
-/

namespace AccessLayer.Layer

/-- Neither a file nor the report has changed. -/
structure Keeps (s s' : Session) : Prop where
  tree : s'.tree = s.tree
  report : s'.report = s.report

theorem Keeps.refl (s : Session) : Keeps s s := ⟨rfl, rfl⟩

theorem Keeps.trans {s s' s'' : Session} (h : Keeps s s') (h' : Keeps s' s'') : Keeps s s'' :=
  ⟨h'.tree.trans h.tree, h'.report.trans h.report⟩

namespace Task

variable {α β γ : Type} {r : Except Failure β} {f : α → Task β} {x : Task α}
  {body : γ → PUnit → Task (ForInStep PUnit)} {s₁ : Session} {e : Failure} {path content : Bytes}

/-- The task ends in `s` with `r` and leaves `s'`. -/
def Ends (x : Task α) (s : Session) (r : Except Failure α) (s' : Session) : Prop :=
  x.runIn s = (r, s')

/-- The task succeeds in `s` with `a` and leaves `s'`. -/
def Gives (x : Task α) (s : Session) (a : α) (s' : Session) : Prop := x.Ends s (.ok a) s'

variable {s s' : Session} {a : α} {b : β}

theorem ends_runIn (x : Task α) (s : Session) : x.Ends s (x.runIn s).1 (x.runIn s).2 := rfl

theorem ends_unique {r r' : Except Failure α} (h : x.Ends s r s') (h' : x.Ends s r' s₁) :
    r = r' ∧ s' = s₁ := Prod.mk.inj (h.symm.trans h')

/-! ## Tasks made of tasks -/

theorem ends_iff {q r : Except Failure α} (h : x.Ends s q s₁) :
    x.Ends s r s' ↔ r = q ∧ s' = s₁ := by
  constructor
  · exact fun h' => ends_unique h' h
  · rintro ⟨rfl, rfl⟩
    exact h

theorem ends_pure {r : Except Failure α} : (pure a : Task α).Ends s r s' ↔ r = .ok a ∧ s' = s :=
  ends_iff rfl

theorem ends_throw {r : Except Failure α} : (throw e : Task α).Ends s r s' ↔ r = .error e ∧
    s' = s := ends_iff rfl

/-- The first task fails, or the second one ends in the session that the first one leaves. -/
theorem ends_bind :
    (x >>= f).Ends s r s' ↔
      (∃ e, x.Ends s (.error e) s' ∧ r = .error e) ∨ ∃ a s₁, x.Gives s a s₁ ∧
        (f a).Ends s₁ r s' := by
  rcases hx : x.runIn s with ⟨q, s₁⟩
  have hrun : (x >>= f).runIn s = (ExceptT.bindCont f q).run s₁ := by
    show (x.run >>= ExceptT.bindCont f).run s = _
    rw [StateT.run_bind]
    rw [runIn] at hx
    rw [hx]
    rfl
  unfold Gives Ends
  rw [hrun, hx]
  cases q with
  | error e =>
    constructor
    · intro h
      cases h
      exact .inl ⟨e, rfl, rfl⟩
    · rintro (⟨e', h, rfl⟩ | ⟨a, s₂, h, -⟩)
      · cases h
        rfl
      · cases h
  | ok a =>
    constructor
    · exact fun h => .inr ⟨a, s₁, rfl, h⟩
    · rintro (⟨e', h, rfl⟩ | ⟨a', s₂, h, hf⟩)
      · cases h
      · cases h
        exact hf

theorem gives_pure {b : α} : (pure a : Task α).Gives s b s' ↔ b = a ∧ s' = s := by
  rw [Gives, ends_pure, Except.ok.injEq]

/-- A run that is seen to succeed gives the session that it leaves. -/
theorem gives_run_iff {x : Task Unit} : x.Gives s () (x.runIn s).2 ↔ (x.runIn s).1.isOk := by
  rw [Gives, Ends]
  rcases x.runIn s with ⟨q, s'⟩
  cases q with
  | ok a => exact ⟨fun _ => rfl, fun _ => rfl⟩
  | error e => exact ⟨nofun, nofun⟩

/-- A run that is seen to succeed gives its result. -/
theorem gives_of_toOption (h : (x.runIn s).1.toOption = some a) : x.Gives s a (x.runIn s).2 :=
  Prod.ext (toOption_eq_some.1 h) rfl

theorem not_gives_throw : ¬ (throw e : Task α).Gives s a s' := by
  intro h
  cases (ends_throw.1 h).1

theorem gives_bind : (x >>= f).Gives s b s' ↔ ∃ a s₁, x.Gives s a s₁ ∧ (f a).Gives s₁ b s' := by
  rw [Gives, ends_bind]
  constructor
  · rintro (⟨e, -, h⟩ | h)
    · cases h
    · exact h
  · exact .inr

/-- After a task that gives a result the rest goes on with it. -/
theorem ends_bind_of (hx : x.Gives s a s₁) : (x >>= f).Ends s r s' ↔ (f a).Ends s₁ r s' := by
  rw [ends_bind]
  constructor
  · rintro (⟨e, hfail, -⟩ | ⟨a', s₁', hx', hrest⟩)
    · cases (ends_unique hx hfail).1
    · obtain ⟨ha, rfl⟩ := ends_unique hx hx'
      cases ha
      exact hrest
  · exact fun hrest => .inr ⟨a, s₁, hx, hrest⟩

theorem gives_bind_of (hx : x.Gives s a s₁) : (x >>= f).Gives s b s' ↔ (f a).Gives s₁ b s' :=
  ends_bind_of hx

theorem not_gives_throw_bind : ¬ ((throw e : Task α) >>= f).Gives s b s' := by
  rw [gives_bind]
  rintro ⟨a, s₁, hthrow, -⟩
  exact not_gives_throw hthrow

/-- A loop runs to its end, or a round of it fails after some that succeeded. The property speaks of
the elements that are done. -/
theorem ends_forIn {xs : List γ} {r : Except Failure PUnit} (inv : List γ → Session → Prop)
    (hstep : ∀ done x rest, xs = done ++ x :: rest → ∀ s step s', inv done s →
      (body x ⟨⟩).Gives s step s' →
      step = .yield ⟨⟩ ∧ inv (done ++ [x]) s')
    (hs : inv [] s) (h : (forIn xs PUnit.unit body).Ends s r s') :
    r = .ok ⟨⟩ ∧ inv xs s' ∨
      ∃ done x rest s₁ e, xs = done ++ x :: rest ∧ inv done s₁ ∧ (body x ⟨⟩).Ends s₁ (.error e) s' ∧
        r = .error e := by
  -- the elements done so far stand in front of those that are left
  suffices hloop : ∀ rest done, done ++ rest = xs → ∀ s, inv done s →
      (forIn rest PUnit.unit body).Ends s r s' →
      r = .ok ⟨⟩ ∧ inv xs s' ∨ ∃ done x rest s₁ e, xs = done ++ x :: rest ∧ inv done s₁ ∧
        (body x ⟨⟩).Ends s₁ (.error e) s' ∧ r = .error e from hloop xs [] rfl s hs h
  intro rest
  induction rest with
  | nil =>
    intro done hdone s hs h
    rw [List.forIn_nil, ends_pure] at h
    rw [h.1, h.2, ← hdone, List.append_nil]
    exact .inl ⟨rfl, hs⟩
  | cons x rest ih =>
    intro done hdone s hs h
    rw [List.forIn_cons, ends_bind] at h
    obtain ⟨e, hfail, rfl⟩ | ⟨step, s₁, hbody, hrest⟩ := h
    · exact .inr ⟨done, x, rest, s, e, hdone.symm, hs, hfail, rfl⟩
    · obtain ⟨rfl, hs₁⟩ := hstep done x rest hdone.symm s step s₁ hs hbody
      exact ih (done ++ [x]) (by simpa using hdone) s₁ hs₁ hrest

/-- A loop whose rounds are done as a whole or not at all, up to one that fails. -/
theorem ends_forIn_rounds {xs : List γ} {r : Except Failure PUnit} (inv : List γ → Session → Prop)
    (bad : Failure → Prop)
    (hround : ∀ x ∈ xs, ∀ done s r s', inv done s → (body x ⟨⟩).Ends s r s' →
      r = .ok (.yield ⟨⟩) ∧ inv (done ++ [x]) s' ∨ (∃ e, r = .error e ∧ bad e) ∧ inv done s')
    (hs : inv [] s) (h : (forIn xs PUnit.unit body).Ends s r s') :
    ∃ done, done <+: xs ∧ inv done s' ∧ (r = .ok ⟨⟩ ∧ done = xs ∨ ∃ e, r = .error e ∧ bad e) := by
  have hstep : ∀ done x rest, xs = done ++ x :: rest → ∀ s step s', inv done s →
      (body x ⟨⟩).Gives s step s' →
      step = .yield ⟨⟩ ∧ inv (done ++ [x]) s' := by
    intro done x rest hxs s step s' hs hbody
    obtain ⟨hstep, hs'⟩ | ⟨⟨e, he, -⟩, -⟩ := hround x (by simp [hxs]) done s _ s' hs hbody
    · exact ⟨Except.ok.inj hstep, hs'⟩
    · cases he
  obtain ⟨rfl, hall⟩ | ⟨done, x, rest, s₁, e, rfl, hdone, hfail, rfl⟩ := ends_forIn inv hstep hs h
  · exact ⟨xs, List.prefix_refl _, hall, .inl ⟨rfl, rfl⟩⟩
  · obtain ⟨hok, -⟩ | ⟨⟨e', he, hbad⟩, hs'⟩ := hround x (by simp) done s₁ _ s' hdone hfail
    · cases hok
    · cases he
      exact ⟨done, List.prefix_append _ _, hs', .inr ⟨e, rfl, hbad⟩⟩

/-! ## Basic tasks -/

theorem ends_get_bind {f : Session → Task β} :
    ((get : Task Session) >>= f).Ends s r s' ↔ (f s).Ends s r s' := ends_bind_of rfl

theorem gives_get_bind {f : Session → Task β} :
    ((get : Task Session) >>= f).Gives s b s' ↔ (f s).Gives s b s' :=
  ends_get_bind

theorem ends_modify {f : Session → Session} {r : Except Failure PUnit} :
    (modify f : Task PUnit).Ends s r s' ↔ r = .ok ⟨⟩ ∧ s' = f s := ends_iff rfl

theorem gives_modify {f : Session → Session} {r : PUnit} :
    (modify f : Task PUnit).Gives s r s' ↔ s' = f s := by
  rw [Gives, ends_modify]
  simp

/-- After a note in the session, the rest of a task runs in the session with the note. -/
theorem ends_modify_bind {f : Session → Session} {g : PUnit → Task β} :
    ((modify f : Task PUnit) >>= g).Ends s r s' ↔ (g ⟨⟩).Ends (f s) r s' := ends_bind_of rfl

theorem ends_report_bind {f : Report → Report} {g : Unit → Task β} :
    (report f >>= g).Ends s r s' ↔ (g ()).Ends { s with report := f s.report } r s' :=
  ends_modify_bind

theorem ends_print_bind {channel : Channel} {text : Bytes} {g : Unit → Task β} :
    (print channel text >>= g).Ends s r s' ↔
      (g ()).Ends { s with printed := s.printed ++ [(channel, text)] } r s' :=
  ends_modify_bind

theorem ends_set {t : Session} {r : Except Failure PUnit} :
    (set t : Task PUnit).Ends s r s' ↔ r = .ok ⟨⟩ ∧ s' = t :=
  ends_modify (f := fun _ => t)

theorem ends_set_bind {t : Session} {g : PUnit → Task β} :
    ((set t : Task PUnit) >>= g).Ends s r s' ↔ (g ⟨⟩).Ends t r s' :=
  ends_modify_bind (f := fun _ => t)

theorem gives_readFile :
    (readFile path).Gives s content s' ↔ s.tree.readFile s.cwd path = .ok content ∧ s' = s := by
  rw [readFile, gives_get_bind]
  constructor
  · intro h
    cases hread : s.tree.readFile s.cwd path with
    | error e =>
      rw [hread] at h
      exact absurd h not_gives_throw
    | ok text =>
      rw [hread] at h
      obtain ⟨rfl, rfl⟩ := gives_pure.1 h
      exact ⟨rfl, rfl⟩
  · rintro ⟨hread, rfl⟩
    rw [hread]
    exact gives_pure.2 ⟨rfl, rfl⟩

theorem gives_listDir {dir : Bytes} {r : Option (List (Bytes × Entry))} :
    (listDir dir).Gives s r s' ↔ s' = s ∧
      ((∃ entries, s.tree.readDir s.cwd dir = .ok entries ∧ r = some entries) ∨
      ∃ e, s.tree.readDir s.cwd dir = .error e ∧ e.fault = .notFound ∧ r = none) := by
  rw [listDir, gives_get_bind]
  cases hread : s.tree.readDir s.cwd dir with
  | error e =>
    by_cases he : e.fault = .notFound
    · simp [he, gives_pure, and_comm]
    · simp only [beq_false_of_ne he, Bool.false_eq_true, if_false]
      constructor
      · exact fun h => absurd h not_gives_throw
      · rintro ⟨-, ⟨entries, h, -⟩ | ⟨e', h, hfault, -⟩⟩
        · cases h
        · cases h
          exact absurd hfault he
  | ok entries => simp [gives_pure, and_comm]

/-- Only the file system keeps a directory from being listed. -/
theorem ends_listDir_error {dir : Bytes} (h : (listDir dir).Ends s (.error e) s') :
    (∃ task error, e = .file task error) ∧ s' = s := by
  rw [listDir, ends_get_bind] at h
  cases hread : s.tree.readDir s.cwd dir with
  | ok entries =>
    rw [hread] at h
    cases (ends_pure.1 h).1
  | error error =>
    simp only [hread] at h
    split at h
    · cases (ends_pure.1 h).1
    · obtain ⟨he, hs'⟩ := ends_throw.1 h
      cases he
      exact ⟨⟨_, _, rfl⟩, hs'⟩

/-- Directories are made as far as possible, and then the file is written. -/
theorem ends_writeFile {r : Except Failure Unit} (h : (writeFile path content).Ends s r s') :
    ∃ t fault, s.tree.makeDirsFrom [] (Path.names (Path.dir path)) = (t, fault) ∧
      ((∃ task e, r = .error (.file task e)) ∧ s' = { s with tree := t } ∨
        fault = none ∧ r = .ok () ∧ ∃ t', t.writeFile s.cwd path content = .ok t' ∧
          s' = { s with tree := t' }) := by
  rw [writeFile, ends_get_bind] at h
  rcases hmake : s.tree.makeDirsFrom [] (Path.names (Path.dir path)) with ⟨t, fault⟩
  simp only [hmake, ends_set_bind] at h
  refine ⟨t, fault, rfl, ?_⟩
  cases fault with
  | some e =>
    obtain ⟨hr, hs'⟩ := ends_throw.1 h
    exact .inl ⟨⟨_, _, hr⟩, hs'⟩
  | none =>
    cases hwrite : t.writeFile s.cwd path content with
    | error e =>
      simp only [hwrite] at h
      obtain ⟨hr, hs'⟩ := ends_throw.1 h
      exact .inl ⟨⟨_, _, hr⟩, hs'⟩
    | ok t' =>
      simp only [hwrite] at h
      obtain ⟨hr, hs'⟩ := ends_set.1 h
      exact .inr ⟨rfl, hr, t', rfl, hs'⟩

theorem gives_writeFile {t t' : Tree}
    (hmake : s.tree.makeDirsFrom [] (Path.names (Path.dir path)) = (t, none))
    (hwrite : t.writeFile s.cwd path content = .ok t') :
    (writeFile path content).Gives s () { s with tree := t' } := by
  rw [writeFile, gives_get_bind]
  simp only [hmake]
  rw [Gives, ends_set_bind]
  simp only [hwrite]
  exact ends_set.2 ⟨rfl, rfl⟩

theorem ends_removeFile {r : Except Failure Unit} (h : (removeFile path).Ends s r s') :
    (∃ task e, r = .error (.file task e)) ∧ s' = s ∨
      r = .ok () ∧ ∃ t, s.tree.remove s.cwd path = .ok t ∧ s' = { s with tree := t } := by
  rw [removeFile, ends_get_bind] at h
  cases hremove : s.tree.remove s.cwd path with
  | error e =>
    rw [hremove] at h
    obtain ⟨hr, hs'⟩ := ends_throw.1 h
    exact .inl ⟨⟨_, _, hr⟩, hs'⟩
  | ok t =>
    rw [hremove] at h
    obtain ⟨hr, hs'⟩ := ends_set.1 h
    exact .inr ⟨hr, t, rfl, hs'⟩

theorem ends_removeEmptyDir {r : Except Failure Unit} (h : (removeEmptyDir path).Ends s r s') :
    r = .ok () ∧ ((∃ e, s.tree.remove s.cwd path = .error e) ∧ s' = s ∨
      ∃ t, s.tree.remove s.cwd path = .ok t ∧ s' = { s with tree := t }) := by
  rw [removeEmptyDir, ends_modify] at h
  obtain ⟨rfl, hs'⟩ := h
  refine ⟨rfl, ?_⟩
  cases hremove : s.tree.remove s.cwd path with
  | error e =>
    rw [hremove] at hs'
    exact .inl ⟨⟨e, rfl⟩, hs'⟩
  | ok t =>
    rw [hremove] at hs'
    exact .inr ⟨t, rfl, hs'⟩

/-! ## Tasks that change no file -/

/-- The task changes neither files nor the report, however it ends. -/
def Quiet (x : Task α) : Prop := ∀ ⦃s r s'⦄, x.Ends s r s' → Keeps s s'

namespace Quiet

variable {xs : List γ}

theorem pure (a : α) : Quiet (Pure.pure a : Task α) := by
  intro s r s' h
  rw [(ends_pure.1 h).2]
  exact Keeps.refl s

theorem throw (e : Failure) : Quiet (throwThe Failure e : Task α) := by
  intro s r s' h
  rw [(ends_throw.1 h).2]
  exact Keeps.refl s

theorem throw_bind (e : Failure) (f : α → Task β) : Quiet (throwThe Failure e >>= f) := by
  intro s r s' h
  obtain ⟨e', hfail, -⟩ | ⟨a, s₁, hgives, -⟩ := ends_bind.1 h
  · exact throw e hfail
  · exact absurd hgives not_gives_throw

theorem bind (hx : Quiet x) (hf : ∀ a, Quiet (f a)) : Quiet (x >>= f) := by
  intro s r s' h
  obtain ⟨e, hfail, -⟩ | ⟨a, s₁, hgives, hrest⟩ := ends_bind.1 h
  · exact hx hfail
  · exact (hx hgives).trans (hf a hrest)

theorem get_bind {f : Session → Task β} (hf : ∀ s, Quiet (f s)) :
    Quiet ((get : Task Session) >>= f) :=
  fun s _ _ h => hf s (ends_get_bind.1 h)

/-- A note in the session that is no part of the report. -/
theorem note {f : Session → Session} (hf : ∀ s, Keeps s (f s)) : Quiet (modify f : Task PUnit) := by
  intro s r s' h
  rw [(ends_modify.1 h).2]
  exact hf s

theorem log (line : Bytes) : Quiet (Task.log line) := note fun _ => ⟨rfl, rfl⟩

theorem foldlM {f : β → γ → Task β} (hf : ∀ b x, Quiet (f b x)) (b : β) :
    Quiet (xs.foldlM f b) := by
  induction xs generalizing b with
  | nil => exact pure b
  | cons x xs ih =>
    rw [List.foldlM_cons]
    exact bind (hf b x) ih

theorem mapM {f : γ → Task β} (hf : ∀ x, Quiet (f x)) : Quiet (xs.mapM f) := by
  induction xs with
  | nil => exact pure []
  | cons x xs ih =>
    rw [List.mapM_cons]
    exact bind (hf x) fun _ => bind ih fun _ => pure _

theorem forIn (h : ∀ x r, Quiet (body x r)) : Quiet (ForIn.forIn xs PUnit.unit body) := by
  induction xs with
  | nil => exact pure _
  | cons x xs ih =>
    rw [List.forIn_cons]
    refine bind (h x ⟨⟩) fun step => ?_
    cases step with
    | done r => exact pure _
    | yield r => exact ih

theorem readFile (path : Bytes) : Quiet (Task.readFile path) := by
  refine get_bind fun s => ?_
  cases s.tree.readFile s.cwd path with
  | ok content => exact pure _
  | error e => exact throw _

theorem listDir (dir : Bytes) : Quiet (Task.listDir dir) := by
  refine get_bind fun s => ?_
  cases s.tree.readDir s.cwd dir with
  | ok entries => exact pure _
  | error e =>
    dsimp only
    split
    · exact pure _
    · exact throw _

end Quiet

end Task

end AccessLayer.Layer
