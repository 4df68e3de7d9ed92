import Bl616cl.Lib.Run
import Bl616cl.Runtime.Concurrent

/-!
# Builds that do not overlap

A run takes the SDK tree and the cache as its own from `write_probe_dir` to the cache key, and from
the cache lookup to its end. `published_whole` says that this is what two builders need: while their
exclusive parts do not overlap, what they publish is whole and the tree is clean in the end. A run
that raises in `write_probe_dir`, or does not get the probe directory removed in `prune_cache`, ends
its exclusive part with the probe directory in pieces, so the other must not be about to read it.
-/

namespace Bl616cl.Runtime.Concurrent

open Bl616cl.Lib

variable {Tree Key : Type} {S : Site Tree Key}

/-! ## The patch set -/

namespace Site

variable {es : List PatchEntry} {t u : Tree}

theorem laidOver_append {as bs : List PatchEntry} {t u v : Tree}
    (h : S.LaidOver false as t u) (h' : S.LaidOver false bs u v) :
    S.LaidOver false (as ++ bs) t v := by
  induction as generalizing t with
  | nil =>
    cases h
    exact h'
  | cons e as ih =>
    cases h with
    | laid hfwd hdir hrest => exact .laid hfwd hdir (ih hrest)
    | leftOut hrev hdir hrest => exact .leftOut hrev hdir (ih hrest)

/-- The patches to come are not in the tree. -/
theorem Applies.laidOver_refl (h : S.Applies es t u) : S.LaidOver false es t t := by
  cases h with
  | done => exact .done
  | applied hfresh => exact PatchTool.laidOver_refl hfresh

theorem Applies.laidOver (h : S.Applies es t u) : S.LaidOver false es t u := by
  induction h with
  | done => exact .done
  | applied _ hfwd hdir _ ih => exact .laid hfwd hdir ih

/-- What is left of `restore` leads to the clean tree. -/
def Restores (clean : Tree) (todo : List PatchEntry) (t : Tree) : Prop :=
  todo.foldl (fun r e => S.restoreOne e r) (t, false) = (clean, false)

theorem restores_reverse (h : S.LaidOver false es t u) : S.Restores t es.reverse u := by
  unfold Restores
  rw [List.foldl_reverse]
  exact PatchTool.restore_eq_iff.mpr h

theorem foldl_restoreOne_raised (todo : List PatchEntry) (t : Tree) :
    todo.foldl (fun r e => S.restoreOne e r) (t, true) = (t, true) := by
  induction todo with
  | nil => rfl
  | cons e todo ih => exact ih

theorem restores_cons {e : PatchEntry} (h : S.Restores t (e :: es) u) :
    (S.restoreOne e (u, false)).2 = false ∧ S.Restores t es (S.restoreOne e (u, false)).1 := by
  unfold Restores at h
  rw [List.foldl_cons] at h
  obtain ⟨v, raised, hv⟩ : ∃ v raised, S.restoreOne e (u, false) = (v, raised) := ⟨_, _, rfl⟩
  rw [hv] at h
  cases raised with
  | true =>
    rw [foldl_restoreOne_raised] at h
    cases h
  | false =>
    rw [hv]
    exact ⟨rfl, h⟩

end Site

/-! ## The invariant -/

namespace Phase

/-- The tree may be patched. -/
def patching : Phase Key → Bool
  | applying _ _ | making _ | staging _ | replacing _ | published _ false | pruning _ false _
  | discarding _ | restoring _ _ => true
  | _ => false

/-- `write_probe_dir` is done, and the probe directory is needed yet. -/
def probed : Phase Key → Bool
  | keying | lookup _ | clearing _ | preparing _ | verifying _ | applying _ _ | making _
  | staging _ => true
  | _ => false

/-- The run is in the `try` block. -/
def inTry : Phase Key → Bool
  | verifying _ | applying _ _ | making _ | staging _ | replacing _ | published _ false
  | pruning _ false _ => true
  | _ => false

theorem inTry_facts {phase : Phase Key} (h : phase.inTry = true) :
    phase.exclusive = true ∧ phase.hit = false := by
  cases phase with
  | published k hit | pruning k hit stale => cases hit <;> first | exact ⟨rfl, rfl⟩ | cases h
  | _ => first | exact ⟨rfl, rfl⟩ | cases h

theorem exclusive_of_breaking {phase : Phase Key} (h : phase.breaking = true) :
    phase.exclusive = true := by
  cases phase <;> first | rfl | cases h

/-- The run writes nothing that another could read. -/
def light (phase : Phase Key) : Bool := !phase.exclusive || phase.hit

theorem probed_of_light {phase : Phase Key} (h : phase.light = true)
    (hd : phase.deciding = false) : phase.probed = false := by
  cases phase <;> first | rfl | (cases h; done) | cases hd

end Phase

namespace World

/-- What holds of the shared state while the run `b` is in a phase. -/
def Ok (S : Site Tree Key) (clean patched : Tree) (s : World Tree Key) (b : Bool) :
    Phase Key → Prop
  | .probing _ todo => ∃ pre, S.template = pre ++ todo ∧
      ∀ x ∈ pre, s.files .probe x.1 = some x.2
  | .preparing k => s.dirs (.staging k) = some fun _ => none
  | .verifying k => (s.dirs (.staging k) = some fun _ => none) ∧
      ∃ f, s.dirs .probe = some f ∧ S.HasTemplate f ∧ s.work k = some f
  | .applying k todo => ((s.dirs (.staging k) = some fun _ => none) ∧
      ∃ f, s.dirs .probe = some f ∧ S.HasTemplate f ∧ s.work k = some f) ∧
      ∃ pre, S.entries = pre ++ todo ∧ S.LaidOver false pre clean s.tree ∧
        S.Applies todo s.tree patched
  | .making k => s.tree = patched ∧ (∀ t ∈ s.seen b, t = patched) ∧
      (s.dirs (.staging k) = some fun _ => none) ∧ ∃ f w, s.dirs .probe = some f ∧
        S.HasTemplate f ∧ s.work k = some w ∧ Relation.ReflTransGen (Wrote (S.make b patched)) f w
  | .staging k => s.tree = patched ∧ (∀ t ∈ s.seen b, t = patched) ∧
      ∃ f w d, s.dirs .probe = some f ∧ S.HasTemplate f ∧ s.work k = some w ∧
        Finishes (S.make b patched) f w ∧ s.dirs (.staging k) = some d ∧
        Relation.ReflTransGen (Wrote (S.stage b patched f w)) (fun _ => none) d
  | .replacing k => s.tree = patched ∧ (∀ t ∈ s.seen b, t = patched) ∧
      ∃ d, s.dirs (.staging k) = some d ∧ S.Undisturbed b patched d
  | .published _ false | .pruning _ false _ => s.tree = patched
  | .discarding _ => S.LaidOver false S.entries clean s.tree
  | .restoring _ todo => S.Restores clean todo s.tree
  | _ => True

/-- The invariant over runs. -/
structure Inv (S : Site Tree Key) (clean patched : Tree) (s : World Tree Key) : Prop where
  tree : (∀ b, (s.phase b).patching = false) → s.tree = clean
  probe : ∀ b, (s.phase b).probed = true → (∀ c, (s.phase c).breaking = false) →
    ∀ f, s.dirs .probe = some f → S.HasTemplate f
  ok : ∀ b, s.Ok S clean patched b (s.phase b)
  published : ∀ r ∈ s.published, S.Whole patched r

variable {clean patched : Tree} {s s' : World Tree Key} {b : Bool} {phase : Phase Key}

theorem ok_of_light (h : phase.light = true) : s.Ok S clean patched b phase := by
  cases phase with
  | published k hit => cases hit <;> trivial
  | pruning k hit stale => cases hit <;> trivial
  | idle | keying | lookup k | finished => trivial
  | clearing k => trivial
  | _ => cases h

theorem ok_congr (htree : s'.tree = s.tree) (hdirs : s'.dirs = s.dirs) (hwork : s'.work = s.work)
    (hseen : s'.seen b = s.seen b) (h : s.Ok S clean patched b phase) :
    s'.Ok S clean patched b phase := by
  cases phase with
  | published k hit => cases hit <;> first | trivial | exact htree.trans h
  | pruning k hit stale => cases hit <;> first | trivial | exact htree.trans h
  | _ => first | trivial | simpa only [Ok, files, htree, hdirs, hwork, hseen] using h

theorem Apart.light (h : s.Apart) (hb : (s.phase b).exclusive = true) :
    (s.phase !b).light = true := by
  unfold Phase.light
  cases hother : (s.phase !b).exclusive with
  | false => rfl
  | true =>
    unfold Apart at h
    cases b <;> simp_all

theorem Apart.alone (h : s.Apart) (hb : (s.phase b).exclusive = true)
    (hhit : (s.phase b).hit = false) : (s.phase !b).exclusive = false := by
  have hlight := h.light hb
  unfold Apart at h
  by_contra hother
  rw [Bool.not_eq_false] at hother
  cases b <;> simp_all

theorem forall_bool {p : Bool → Prop} (hb : p b) (hother : p !b) (c : Bool) : p c := by
  cases b <;> cases c <;> assumption

theorem breaking_of_exclusive (h : phase.exclusive = false) : phase.breaking = false := by
  cases phase <;> first | rfl | cases h

theorem patching_of_exclusive (h : phase.exclusive = false) : phase.patching = false := by
  cases phase <;> first | rfl | cases h

/-- The run is in its exclusive part, and leaves the probe directory alone. -/
structure Owns (s : World Tree Key) (b : Bool) : Prop where
  exclusive : (s.phase b).exclusive = true
  intact : (s.phase b).breaking = false

theorem owns (hphase : s.phase b = phase)
    (h : phase.exclusive = true ∧ phase.breaking = false) : s.Owns b := by
  rw [← hphase] at h
  exact ⟨h.1, h.2⟩

theorem Inv.tree_clean (h : s.Inv S clean patched) (hapart : s.Apart)
    (hb : (s.phase b).exclusive = true) (hhit : (s.phase b).hit = false)
    (hpatching : (s.phase b).patching = false) : s.tree = clean :=
  h.tree (forall_bool hpatching (patching_of_exclusive (hapart.alone hb hhit)))

theorem Inv.hasTemplate (h : s.Inv S clean patched) (hapart : s.Apart) (howns : s.Owns b)
    (hprobed : (s.phase b).probed = true) (hhit : (s.phase b).hit = false) {f : Files}
    (hf : s.dirs .probe = some f) : S.HasTemplate f := by
  have hother := breaking_of_exclusive (hapart.alone howns.exclusive hhit)
  exact h.probe b hprobed (forall_bool howns.intact hother) f hf

/-- A step of the run `b` to `phase`: what the other run needs is left as it is. -/
theorem Inv.move (h : s.Inv S clean patched) (hphase : s'.phase = Function.update s.phase b phase)
    (hseen : s'.seen (!b) = s.seen (!b)) (hpublished : ∀ r ∈ s'.published, S.Whole patched r)
    (hother : (s.phase !b).light = true ∨
      s'.tree = s.tree ∧ s'.dirs = s.dirs ∧ s'.work = s.work)
    (htree : phase.patching = false → (s.phase !b).patching = false → s'.tree = clean)
    (hprobe : phase.probed = true ∨ (s.phase !b).probed = true → phase.breaking = false →
      (s.phase !b).breaking = false → ∀ f, s'.dirs .probe = some f → S.HasTemplate f)
    (hok : s'.Ok S clean patched b phase) : s'.Inv S clean patched := by
  have hself : s'.phase b = phase := by rw [hphase, Function.update_self]
  have hne : (!b) ≠ b := by cases b <;> decide
  have hrest : s'.phase (!b) = s.phase (!b) := by rw [hphase, Function.update_of_ne hne]
  have hboth : ∀ c, c = b ∨ c = !b := by
    intro c
    cases b <;> cases c <;> simp
  refine ⟨fun hall => ?_, fun c hprobed hall => ?_, fun c => ?_, hpublished⟩
  · exact htree (hself ▸ hall b) (hrest ▸ hall !b)
  · refine hprobe ?_ (hself ▸ hall b) (hrest ▸ hall !b)
    rcases hboth c with rfl | rfl
    · exact .inl (hself ▸ hprobed)
    · exact .inr (hrest ▸ hprobed)
  · rcases hboth c with rfl | rfl
    · rw [hself]
      exact hok
    · rw [hrest]
      rcases hother with hlight | ⟨htree', hdirs, hwork⟩
      · exact ok_of_light hlight
      · exact ok_congr htree' hdirs hwork hseen (h.ok !b)

/-- A step that leaves the probe directory alone keeps what either run relies on. -/
theorem Inv.template (h : s.Inv S clean patched)
    (hreads : phase.probed = true ∨ (s.phase !b).probed = true)
    (hprobed : phase.probed = true → (s.phase b).probed = true)
    (hall : ∀ c, (s.phase c).breaking = false) :
    ∀ f, s.dirs .probe = some f → S.HasTemplate f := by
  rcases hreads with hb | hother
  · exact h.probe b (hprobed hb) hall
  · exact h.probe (!b) hother hall

theorem Inv.goTo (h : s.Inv S clean patched)
    (htree : phase.patching = false → (s.phase b).patching = false ∨ s.tree = clean)
    (hprobe : phase.breaking = false →
      ((phase.probed = true → (s.phase b).probed = true) ∧ (s.phase b).breaking = false) ∨
        ∀ f, s.dirs .probe = some f → S.HasTemplate f)
    (hok : s.Ok S clean patched b phase) : (s.goTo b phase).Inv S clean patched := by
  refine h.move rfl rfl h.published (Or.inr ⟨rfl, rfl, rfl⟩) ?_ ?_ ?_
  · intro hphase hother
    rcases htree hphase with hb | htree
    · exact h.tree (forall_bool hb hother)
    · exact htree
  · intro hreads hphase hother
    rcases hprobe hphase with ⟨hprobed, hb⟩ | hprobe
    · exact h.template hreads hprobed (forall_bool hb hother)
    · exact hprobe
  · cases phase <;> exact hok

theorem Inv.write (h : s.Inv S clean patched) (hapart : s.Apart)
    (hexclusive : (s.phase b).exclusive = true)
    (hphase : s'.phase = Function.update s.phase b phase) (hseen : s'.seen (!b) = s.seen (!b))
    (hpublished : ∀ r ∈ s'.published, S.Whole patched r)
    (htree : phase.patching = false →
      (s.phase b).patching = false ∧ s'.tree = s.tree ∨ s'.tree = clean)
    (hprobe : phase.breaking = false →
      ((phase.probed = true → (s.phase b).probed = true) ∧ (s.phase b).breaking = false ∧
          s'.dirs .probe = s.dirs .probe) ∨
        ∀ f, s'.dirs .probe = some f → S.HasTemplate f)
    (hok : s'.Ok S clean patched b phase) : s'.Inv S clean patched := by
  refine h.move hphase hseen hpublished (Or.inl (hapart.light hexclusive)) ?_ ?_ hok
  · intro hp hother
    rcases htree hp with ⟨hb, hsame⟩ | htree
    · rw [hsame]
      exact h.tree (forall_bool hb hother)
    · exact htree
  · intro hreads hp hother
    rcases hprobe hp with ⟨hprobed, hb, hsame⟩ | hprobe
    · rw [hsame]
      exact h.template hreads hprobed (forall_bool hb hother)
    · exact hprobe

/-! ## Steps -/

theorem Inv.own (h : s.Inv S clean patched) (hapart : s.Apart) (howns : s.Owns b)
    (hphase : s'.phase = Function.update s.phase b phase) (hseen : s'.seen (!b) = s.seen (!b))
    (hpublished : ∀ r ∈ s'.published, S.Whole patched r)
    (htree : phase.patching = false →
      (s.phase b).patching = false ∧ s'.tree = s.tree ∨ s'.tree = clean)
    (hprobed : phase.probed = true → (s.phase b).probed = true)
    (hprobe : s'.dirs .probe = s.dirs .probe) (hok : s'.Ok S clean patched b phase) :
    s'.Inv S clean patched :=
  h.write hapart howns.exclusive hphase hseen hpublished htree
    (fun _ => Or.inl ⟨hprobed, howns.intact, hprobe⟩) hok

/-- A step of a build that leaves the cache and the work directory alone. -/
theorem Inv.build (h : s.Inv S clean patched) (hapart : s.Apart) (howns : s.Owns b) {tree : Tree}
    (hpatching : phase.patching = true)
    (hprobed : phase.probed = true → (s.phase b).probed = true)
    (hok : ((s.setTree tree).goTo b phase).Ok S clean patched b phase) :
    ((s.setTree tree).goTo b phase).Inv S clean patched :=
  h.own hapart howns rfl rfl h.published (fun e => by rw [hpatching] at e; cases e) hprobed rfl hok

theorem Inv.discard (h : s.Inv S clean patched) (hapart : s.Apart) (howns : s.Owns b) (k : Key)
    (htree : S.LaidOver false S.entries clean s.tree) :
    (s.goTo b (.discarding k)).Inv S clean patched := by
  show ((s.setTree s.tree).goTo b (.discarding k)).Inv S clean patched
  exact h.build hapart howns rfl (fun e => by cases e) htree

theorem phase_eq (hphase : s.phase b = phase) : s.phase = Function.update s.phase b phase := by
  rw [← hphase, Function.update_eq_self]

theorem files_eq {name : Name Key} {f : Files} (h : s.dirs name = some f) : s.files name = f := by
  rw [files, h]
  rfl

theorem workFiles_eq {k : Key} {f : Files} (h : s.work k = some f) : s.workFiles k = f := by
  rw [workFiles, h]
  rfl

theorem Inv.laidOver (happlies : S.Applies S.entries clean patched) (h : s.Inv S clean patched)
    (hapart : s.Apart) (htry : (s.phase b).inTry = true) :
    S.LaidOver false S.entries clean s.tree := by
  obtain ⟨hexclusive, hhit⟩ := Phase.inTry_facts htry
  have hok := h.ok b
  have hpatched : s.tree = patched → S.LaidOver false S.entries clean s.tree := by
    rintro rfl
    exact happlies.laidOver
  cases hphase : s.phase b with
  | verifying k =>
    rw [h.tree_clean hapart hexclusive hhit (by rw [hphase]; rfl)]
    exact happlies.laidOver_refl
  | applying k todo =>
    rw [hphase] at hok
    obtain ⟨-, pre, hentries, hlaid, hrest⟩ := hok
    rw [hentries]
    exact Site.laidOver_append hlaid hrest.laidOver_refl
  | making k | staging k | replacing k =>
    rw [hphase] at hok
    exact hpatched hok.1
  | published k hit | pruning k hit stale =>
    rw [hphase] at hok htry
    cases hit with
    | true => cases htry
    | false => exact hpatched hok
  | _ =>
    rw [hphase] at htry
    cases htry

/-- An exception in the `try` block, before it, or nowhere. -/
theorem raise_cases (s : World Tree Key) (b : Bool) :
    (∃ k, (s.phase b).inTry = true ∧ s.raise b = s.goTo b (.discarding k)) ∨
      ((s.phase b).patching = false ∧ s.raise b = s.goTo b .finished) ∨ s.raise b = s := by
  cases hphase : s.phase b with
  | verifying k | making k | staging k | replacing k =>
    exact Or.inl ⟨k, rfl, by simp only [World.raise, hphase]⟩
  | applying k todo => exact Or.inl ⟨k, rfl, by simp only [World.raise, hphase]⟩
  | probing opened todo => exact Or.inr (Or.inl ⟨rfl, by simp only [World.raise, hphase]⟩)
  | keying => exact Or.inr (Or.inl ⟨rfl, by simp only [World.raise, hphase]⟩)
  | lookup k | clearing k | preparing k =>
    exact Or.inr (Or.inl ⟨rfl, by simp only [World.raise, hphase]⟩)
  | published k hit | pruning k hit stale =>
    cases hit with
    | true => exact Or.inr (Or.inl ⟨rfl, by simp only [World.raise, hphase]⟩)
    | false => exact Or.inl ⟨k, rfl, by simp only [World.raise, hphase]⟩
  | idle | discarding k | restoring k todo | finished =>
    exact Or.inr (Or.inr (by simp only [World.raise, hphase]))

theorem seen_observe (hseen : ∀ t ∈ s.seen b, t = patched) (htree : s.tree = patched) :
    ∀ t ∈ s.observe.seen b, t = patched := by
  intro t ht
  have hmem : t = s.tree ∨ t ∈ s.seen b := by
    simp only [World.observe] at ht
    split at ht
    · exact List.mem_cons.mp ht
    · exact List.mem_cons.mp ht
    · exact Or.inr ht
  rcases hmem with rfl | hmem
  · exact htree
  · exact hseen t hmem

theorem Inv.observe (h : s.Inv S clean patched) : s.observe.Inv S clean patched := by
  refine ⟨h.tree, h.probe, fun b => ?_, h.published⟩
  have hok := h.ok b
  show s.observe.Ok S clean patched b (s.phase b)
  cases hphase : s.phase b with
  | making k | staging k | replacing k =>
    rw [hphase] at hok
    obtain ⟨htree, hseen, hrest⟩ := hok
    exact ⟨htree, seen_observe hseen htree, hrest⟩
  | published k hit | pruning k hit stale =>
    rw [hphase] at hok
    cases hit with
    | true => trivial
    | false => exact hok
  | _ =>
    rw [hphase] at hok
    exact hok

theorem Inv.sound (h : s.Inv S clean patched) : S.Sound clean patched s :=
  ⟨h.published, fun hall => h.tree fun b => by rw [hall b]; rfl⟩

theorem inv_initial {dirs : Name Key → Option Files} {work : Key → Option Files} :
    (initial clean dirs work).Inv S clean patched where
  tree _ := rfl
  probe _ h := by cases h
  ok _ := trivial
  published r hr := by cases hr

variable [DecidableEq Key]

theorem put_self (name : Name Key) (dir : Option Files) : (s.put name dir).dirs name = dir :=
  Function.update_self ..

theorem put_ne {name name' : Name Key} (h : name' ≠ name) (dir : Option Files) :
    (s.put name dir).dirs name' = s.dirs name' := Function.update_of_ne h ..

theorem Inv.putDir (h : s.Inv S clean patched) (hapart : s.Apart) (howns : s.Owns b)
    {name : Name Key} (hname : Name.probe ≠ name) (dir : Option Files)
    (hok : (s.put name dir).Ok S clean patched b (s.phase b)) :
    (s.put name dir).Inv S clean patched :=
  h.own hapart howns (phase_eq rfl) rfl h.published (fun e => Or.inl ⟨e, rfl⟩) (fun e => e)
    (put_ne hname dir) hok

theorem writeFile_files (name : Name Key) (path : String) (contents : List UInt8) :
    (s.writeFile name path contents).files name =
      Function.update (s.files name) path (some contents) :=
  files_eq (put_self ..)

theorem writeFile_template (hnames : (S.template.map Prod.fst).Nodup)
    {pre todo : List (String × List UInt8)} {x : String × List UInt8}
    (htemplate : S.template = pre ++ x :: todo)
    (hpre : ∀ y ∈ pre, s.files .probe y.1 = some y.2) (contents : List UInt8) :
    ∀ y ∈ pre, (s.writeFile .probe x.1 contents).files .probe y.1 = some y.2 := by
  intro y hy
  have hne : y.1 ≠ x.1 := by
    rw [htemplate, List.map_append, List.map_cons, List.nodup_append] at hnames
    exact hnames.2.2 _ (List.mem_map_of_mem hy) _ List.mem_cons_self
  rw [writeFile_files, Function.update_of_ne hne]
  exact hpre y hy

theorem Inv.probing (hnames : (S.template.map Prod.fst).Nodup) (h : s.Inv S clean patched)
    (hapart : s.Apart) {opened : Bool} {todo : List (String × List UInt8)}
    (hphase : s.phase b = .probing opened todo) : (s.go S b).Inv S clean patched := by
  have hok := h.ok b
  rw [hphase] at hok
  obtain ⟨pre, htemplate, hpre⟩ := hok
  have hexclusive : (s.phase b).exclusive = true := by rw [hphase]; rfl
  have hpatching : (s.phase b).patching = false := by rw [hphase]; rfl
  cases todo with
  | nil =>
    simp only [go, hphase]
    refine h.goTo (fun _ => Or.inl hpatching) (fun _ => Or.inr fun f hf x hx => ?_) trivial
    rw [htemplate, List.append_nil] at hx
    rw [← files_eq hf]
    exact hpre x hx
  | cons x todo =>
    have hkept := writeFile_template hnames htemplate hpre
    cases opened with
    | false =>
      simp only [go, hphase]
      exact h.write hapart hexclusive rfl rfl h.published (fun _ => Or.inl ⟨hpatching, rfl⟩)
        (fun e => by cases e) ⟨pre, htemplate, hkept []⟩
    | true =>
      simp only [go, hphase]
      refine h.write hapart hexclusive rfl rfl h.published (fun _ => Or.inl ⟨hpatching, rfl⟩)
        (fun e => by cases e) ⟨pre ++ [x], by simp [htemplate], fun y hy => ?_⟩
      rcases List.mem_append.mp hy with hy | hy
      · exact hkept x.2 y hy
      · obtain rfl := List.mem_singleton.mp hy
        show (s.writeFile .probe y.1 y.2).files .probe y.1 = some y.2
        rw [writeFile_files, Function.update_self]

theorem Inv.lookup (h : s.Inv S clean patched) {k : Key} (hphase : s.phase b = .lookup k) :
    (s.go S b).Inv S clean patched := by
  have hpatching : (s.phase b).patching = false := by rw [hphase]; rfl
  have hprobed : (s.phase b).probed = true := by rw [hphase]; rfl
  have hintact : (s.phase b).breaking = false := by rw [hphase]; rfl
  simp only [go, hphase]
  split
  · exact h.goTo (fun _ => Or.inl hpatching) (fun _ => Or.inl ⟨fun _ => hprobed, hintact⟩) trivial
  · exact h.goTo (fun _ => Or.inl hpatching) (fun _ => Or.inl ⟨fun _ => hprobed, hintact⟩) trivial

theorem Inv.clearing (h : s.Inv S clean patched) (hapart : s.Apart) {k : Key}
    (hphase : s.phase b = .clearing k) : (s.go S b).Inv S clean patched := by
  have howns : s.Owns b := owns hphase ⟨rfl, rfl⟩
  have hpatching : (s.phase b).patching = false := by rw [hphase]; rfl
  have hne : Name.probe ≠ Name.staging k := fun e => by cases e
  simp only [go, hphase]
  split
  · exact h.putDir hapart howns hne none (by rw [hphase]; trivial)
  · have hprobe : (s.put (.staging k) (some fun _ => none)).dirs .probe = s.dirs .probe :=
      put_ne hne _
    exact h.own hapart howns rfl rfl h.published (fun _ => Or.inl ⟨hpatching, rfl⟩)
      (fun _ => by rw [hphase]; rfl) hprobe (put_self ..)

theorem Inv.preparing (h : s.Inv S clean patched) (hapart : s.Apart) {k : Key}
    (hphase : s.phase b = .preparing k) : (s.go S b).Inv S clean patched := by
  have howns : s.Owns b := owns hphase ⟨rfl, rfl⟩
  have hpatching : (s.phase b).patching = false := by rw [hphase]; rfl
  have hok := h.ok b
  rw [hphase] at hok
  simp only [go, hphase]
  split
  · exact h.goTo (fun _ => Or.inl hpatching) (fun _ => Or.inl ⟨fun e => (by cases e), howns.intact⟩)
      trivial
  · next f hf =>
    have hprobed : (s.phase b).probed = true := by rw [hphase]; rfl
    have htemplate := h.hasTemplate hapart howns hprobed (by rw [hphase]; rfl) hf
    exact h.own hapart howns rfl rfl h.published (fun _ => Or.inl ⟨hpatching, rfl⟩)
      (fun _ => hprobed) rfl ⟨hok, f, hf, htemplate, Function.update_self ..⟩

theorem Inv.verifying (hclean : S.verifyClean S.entries clean = none)
    (happlies : S.Applies S.entries clean patched) (h : s.Inv S clean patched) (hapart : s.Apart)
    {k : Key} (hphase : s.phase b = .verifying k) : (s.go S b).Inv S clean patched := by
  have hexclusive : (s.phase b).exclusive = true := by rw [hphase]; rfl
  have htree : s.tree = clean :=
    h.tree_clean hapart hexclusive (by rw [hphase]; rfl) (by rw [hphase]; rfl)
  have hok := h.ok b
  rw [hphase] at hok
  simp only [go, hphase, htree, hclean]
  have happlying : (s.goTo b (.applying k S.entries)).Ok S clean patched b
      (.applying k S.entries) := by
    refine ⟨hok, [], rfl, ?_, ?_⟩
    · show S.LaidOver false [] clean s.tree
      rw [htree]
      exact .done
    · show S.Applies S.entries s.tree patched
      rw [htree]
      exact happlies
  exact h.build hapart (owns hphase ⟨rfl, rfl⟩) rfl (fun _ => by rw [hphase]; rfl) happlying

theorem Inv.applying (h : s.Inv S clean patched) (hapart : s.Apart) {k : Key}
    {todo : List PatchEntry} (hphase : s.phase b = .applying k todo) :
    (s.go S b).Inv S clean patched := by
  have howns : s.Owns b := owns hphase ⟨rfl, rfl⟩
  have hok := h.ok b
  rw [hphase] at hok
  obtain ⟨⟨hstaging, f, hf, htemplate, hwork⟩, pre, hentries, hlaid, happlies⟩ := hok
  cases happlies with
  | done =>
    simp only [go, hphase]
    have hne : (!b) ≠ b := by cases b <;> decide
    refine h.own hapart howns rfl (Function.update_of_ne hne ..) h.published
      (fun e => by cases e) (fun _ => by rw [hphase]; rfl) rfl ?_
    refine ⟨rfl, fun t ht => ?_, hstaging, f, f, hf, htemplate, hwork, .refl⟩
    have hnone : t ∈ Function.update s.seen b [] b := ht
    rw [Function.update_self] at hnone
    cases hnone
  | @applied e es t t' u hfresh hfwd hdir' hrest =>
    obtain ⟨hdir, -⟩ := hfresh e List.mem_cons_self
    simp only [go, hphase, applyOne, hdir, hfwd]
    refine h.build hapart howns rfl (fun _ => by rw [hphase]; rfl) ?_
    refine ⟨⟨hstaging, f, hf, htemplate, hwork⟩, pre ++ [e], by simp [hentries], ?_, hrest⟩
    exact Site.laidOver_append hlaid (.laid hfwd hdir' .done)

theorem Inv.making (happlies : S.Applies S.entries clean patched) (h : s.Inv S clean patched)
    (hapart : s.Apart) {k : Key} (hphase : s.phase b = .making k) :
    (s.go S b).Inv S clean patched := by
  have howns : s.Owns b := owns hphase ⟨rfl, rfl⟩
  have hok := h.ok b
  rw [hphase] at hok
  obtain ⟨htree, hseen, hstaging, f, w, hf, htemplate, hwork, hmade⟩ := hok
  simp only [go, hphase, makeNext, workFiles_eq hwork, htree]
  split
  · next path contents hturn =>
    refine h.own hapart howns (phase_eq hphase) rfl h.published (fun e => by cases e)
      (fun _ => by rw [hphase]; rfl) rfl ?_
    exact ⟨htree, hseen, hstaging, f, _, hf, htemplate, Function.update_self ..,
      hmade.tail ⟨path, contents, hturn, rfl⟩⟩
  · next hturn =>
    exact h.build hapart howns rfl (fun _ => by rw [hphase]; rfl)
      ⟨htree, hseen, f, w, _, hf, htemplate, hwork, ⟨hmade, hturn⟩, hstaging, .refl⟩
  · refine h.discard hapart howns k ?_
    rw [htree]
    exact happlies.laidOver

theorem Inv.stagingNext (happlies : S.Applies S.entries clean patched) (h : s.Inv S clean patched)
    (hapart : s.Apart) {k : Key} (hphase : s.phase b = .staging k) :
    (s.go S b).Inv S clean patched := by
  have howns : s.Owns b := owns hphase ⟨rfl, rfl⟩
  have hne : Name.probe ≠ Name.staging k := fun e => by cases e
  have hok := h.ok b
  rw [hphase] at hok
  obtain ⟨htree, hseen, f, w, d, hf, htemplate, hwork, hmade, hd, hstaged⟩ := hok
  simp only [go, hphase, stageNext, files_eq hf, files_eq hd, workFiles_eq hwork, htree]
  split
  · next path contents hturn =>
    have hprobe : (s.writeFile (.staging k) path contents).dirs .probe = s.dirs .probe :=
      put_ne hne _
    refine h.own hapart howns (phase_eq hphase) rfl h.published (fun e => by cases e)
      (fun _ => by rw [hphase]; rfl) hprobe ?_
    refine ⟨htree, hseen, f, w, Function.update d path (some contents), hprobe.trans hf, htemplate,
      hwork, hmade, ?_, hstaged.tail ⟨path, contents, hturn, rfl⟩⟩
    rw [writeFile, files_eq hd]
    exact put_self ..
  · next hturn =>
    exact h.build hapart howns rfl (fun e => by cases e)
      ⟨htree, hseen, d, hd, f, w, htemplate, hmade, hstaged, hturn⟩
  · refine h.discard hapart howns k ?_
    rw [htree]
    exact happlies.laidOver

theorem Inv.replacing (h : s.Inv S clean patched) (hapart : s.Apart) {k : Key}
    (hphase : s.phase b = .replacing k) : (s.go S b).Inv S clean patched := by
  have howns : s.Owns b := owns hphase ⟨rfl, rfl⟩
  have hok := h.ok b
  rw [hphase] at hok
  obtain ⟨htree, hseen, d, hd, hundisturbed⟩ := hok
  simp only [go, hphase]
  split
  · have hstaging : (s.put (.entry k) none).dirs (.staging k) = s.dirs (.staging k) :=
      put_ne (fun e => by cases e) _
    refine h.putDir hapart howns (fun e => by cases e) none ?_
    rw [hphase]
    exact ⟨htree, hseen, d, hstaging.trans hd, hundisturbed⟩
  · simp only [World.rename, hd]
    have hprobe : ((s.put (.entry k) (some d)).put (.staging k) none).dirs .probe =
        s.dirs .probe := by
      rw [put_ne (fun e => by cases e), put_ne (fun e => by cases e)]
    refine h.own hapart howns rfl rfl (fun r hr => ?_) (fun e => by cases e) (fun e => by cases e)
      hprobe htree
    rcases List.mem_cons.mp hr with rfl | hr
    · exact ⟨hseen, hundisturbed⟩
    · exact h.published r hr

theorem Inv.restoring (h : s.Inv S clean patched) (hapart : s.Apart) {k : Key}
    {todo : List PatchEntry} (hphase : s.phase b = .restoring k todo) :
    (s.go S b).Inv S clean patched := by
  have howns : s.Owns b := owns hphase ⟨rfl, rfl⟩
  have hok := h.ok b
  rw [hphase] at hok
  cases todo with
  | nil =>
    have htree : s.tree = clean := congrArg Prod.fst hok
    simp only [go, hphase]
    split
    · exact h.goTo (fun _ => Or.inr htree) (fun _ => Or.inl ⟨fun e => (by cases e), howns.intact⟩)
        trivial
    · exact h.own hapart howns rfl rfl h.published (fun _ => Or.inr htree) (fun e => by cases e)
        rfl trivial
  | cons e todo =>
    obtain ⟨hraised, hrest⟩ := Site.restores_cons hok
    simp only [go, hphase, restoreNext, hraised]
    exact h.build hapart howns rfl (fun e => by cases e) hrest

theorem Inv.discarding (h : s.Inv S clean patched) (hapart : s.Apart) {k : Key}
    (hphase : s.phase b = .discarding k) : (s.go S b).Inv S clean patched := by
  have howns : s.Owns b := owns hphase ⟨rfl, rfl⟩
  have hok := h.ok b
  rw [hphase] at hok
  have hprobe : (s.put (.staging k) none).dirs .probe = s.dirs .probe :=
    put_ne (fun e => by cases e) _
  simp only [go, hphase]
  exact h.own hapart howns rfl rfl h.published (fun e => by cases e) (fun e => by cases e) hprobe
    (Site.restores_reverse hok)

theorem Inv.prune (h : s.Inv S clean patched) (hapart : s.Apart) {k : Key} {hit : Bool}
    {name : Name Key} {stale : List (Name Key)}
    (hphase : s.phase b = .pruning k hit (name :: stale)) : (s.go S b).Inv S clean patched := by
  have hok := h.ok b
  rw [hphase] at hok
  simp only [go, hphase]
  refine h.write hapart (by rw [hphase]; rfl) rfl rfl h.published ?_ ?_ ?_
  · intro hpatching
    cases hit with
    | true => exact Or.inl ⟨by rw [hphase]; rfl, rfl⟩
    | false => cases hpatching
  · intro _
    by_cases hname : name = .probe
    · subst hname
      refine Or.inr fun f hf => ?_
      have hnone : (s.put .probe none).dirs .probe = some f := hf
      rw [put_self] at hnone
      cases hnone
    · refine Or.inl ⟨fun e => (by cases e), ?_, put_ne (Ne.symm hname) _⟩
      rw [hphase]
      cases name <;> first | rfl | exact absurd rfl hname
  · cases hit with
    | true => trivial
    | false => exact hok

theorem Inv.pruned (happlies : S.Applies S.entries clean patched) (h : s.Inv S clean patched)
    (hapart : s.Apart) {k : Key} {hit : Bool} (hphase : s.phase b = .pruning k hit []) :
    (s.go S b).Inv S clean patched := by
  have howns : s.Owns b := owns hphase ⟨rfl, rfl⟩
  have hok := h.ok b
  rw [hphase] at hok
  cases hit with
  | true =>
    simp only [go, hphase]
    exact h.goTo (fun _ => Or.inl (by rw [hphase]; rfl))
      (fun _ => Or.inl ⟨fun e => (by cases e), howns.intact⟩) trivial
  | false =>
    have htree : s.tree = patched := hok
    have hrestores : S.Restores clean S.entries.reverse s.tree := by
      rw [htree]
      exact Site.restores_reverse happlies.laidOver
    simp only [go, hphase]
    exact h.build hapart howns rfl (fun e => by cases e) hrestores

theorem Inv.go (hnames : (S.template.map Prod.fst).Nodup)
    (hclean : S.verifyClean S.entries clean = none) (happlies : S.Applies S.entries clean patched)
    (h : s.Inv S clean patched) (hapart : s.Apart) (b : Bool) :
    (s.go S b).Inv S clean patched := by
  cases hphase : s.phase b with
  | idle =>
    simp only [World.go, hphase]
    exact h.goTo (fun _ => Or.inl (by rw [hphase]; rfl)) (fun e => by cases e)
      ⟨[], rfl, fun x hx => by cases hx⟩
  | probing opened todo => exact h.probing hnames hapart hphase
  | keying =>
    simp only [World.go, hphase]
    exact h.goTo (fun _ => Or.inl (by rw [hphase]; rfl))
      (fun _ => Or.inl ⟨fun _ => (by rw [hphase]; rfl), by rw [hphase]; rfl⟩) trivial
  | lookup k => exact h.lookup hphase
  | clearing k => exact h.clearing hapart hphase
  | preparing k => exact h.preparing hapart hphase
  | verifying k => exact h.verifying hclean happlies hapart hphase
  | applying k todo => exact h.applying hapart hphase
  | making k => exact h.making happlies hapart hphase
  | staging k => exact h.stagingNext happlies hapart hphase
  | replacing k => exact h.replacing hapart hphase
  | published k hit => simpa only [World.go, hphase] using h
  | pruning k hit stale =>
    cases stale with
    | nil => exact h.pruned happlies hapart hphase
    | cons name stale => exact h.prune hapart hphase
  | discarding k => exact h.discarding hapart hphase
  | restoring k todo => exact h.restoring hapart hphase
  | finished => simpa only [World.go, hphase] using h

theorem Inv.unlinkStale (h : s.Inv S clean patched) (hapart : s.Apart) {k : Key} {hit : Bool}
    {name : Name Key} {stale : List (Name Key)}
    (hphase : s.phase b = .pruning k hit (name :: stale)) (dir : Option Files) :
    (s.put name dir).Inv S clean patched := by
  have hok := h.ok b
  rw [hphase] at hok
  refine h.write hapart (by rw [hphase]; rfl) (phase_eq hphase) rfl h.published
    (fun e => Or.inl ⟨by rw [hphase]; exact e, rfl⟩) (fun e => Or.inl ⟨?_, ?_, ?_⟩) ?_
  · rw [hphase]
    exact fun e => e
  · rw [hphase]
    exact e
  · refine put_ne (fun hname => ?_) dir
    subst hname
    cases e
  · cases hit with
    | true => trivial
    | false => exact hok

theorem Inv.unlink (h : s.Inv S clean patched) (hapart : s.Apart) (b : Bool) (path : String) :
    (s.unlink b path).Inv S clean patched := by
  cases hphase : s.phase b with
  | clearing k =>
    simp only [World.unlink, hphase, Phase.target]
    exact h.putDir hapart (owns hphase ⟨rfl, rfl⟩)
      (fun e => by cases e) _ (by rw [hphase]; trivial)
  | discarding k =>
    have hok := h.ok b
    rw [hphase] at hok
    simp only [World.unlink, hphase, Phase.target]
    exact h.putDir hapart (owns hphase ⟨rfl, rfl⟩)
      (fun e => by cases e) _ (by rw [hphase]; exact hok)
  | replacing k =>
    have hok := h.ok b
    rw [hphase] at hok
    obtain ⟨htree, hseen, d, hd, hundisturbed⟩ := hok
    simp only [World.unlink, hphase, Phase.target]
    refine h.putDir hapart (owns hphase ⟨rfl, rfl⟩)
      (fun e => by cases e) _ ?_
    rw [hphase]
    exact ⟨htree, hseen, d, (put_ne (fun e => by cases e) _).trans hd, hundisturbed⟩
  | pruning k hit stale =>
    cases stale with
    | nil => simpa only [World.unlink, hphase, Phase.target] using h
    | cons name stale =>
      simp only [World.unlink, hphase, Phase.target]
      exact h.unlinkStale hapart hphase _
  | _ => simpa only [World.unlink, hphase, Phase.target] using h

theorem Inv.list (h : s.Inv S clean patched) (b : Bool) (stale : List (Name Key)) :
    (s.act S b (.list stale)).Inv S clean patched := by
  have hok := h.ok b
  simp only [act]
  split
  · next k hit hphase =>
    rw [hphase] at hok
    refine h.goTo (fun e => Or.inl ?_)
      (fun _ => Or.inl ⟨fun e => (by cases e), by rw [hphase]; rfl⟩) ?_
    · rw [hphase]
      cases hit <;> first | rfl | cases e
    · cases hit with
      | true => trivial
      | false => exact hok
  · exact h

omit [DecidableEq Key] in
theorem Apart.unread (hapart : s.Apart)
    (hunbroken : (s.phase b).breaking = true → (s.phase !b).deciding = false)
    (hbreaking : (s.phase b).breaking = true) : (s.phase !b).probed = false :=
  Phase.probed_of_light (hapart.light (Phase.exclusive_of_breaking hbreaking))
    (hunbroken hbreaking)

omit [DecidableEq Key] in
/-- A run that leaves the probe directory in pieces leaves no other to read it. -/
theorem Inv.leave (h : s.Inv S clean patched)
    (htree : phase.patching = false → (s.phase b).patching = false ∨ s.tree = clean)
    (hunread : (s.phase b).breaking = true → (s.phase !b).probed = false)
    (hprobed : phase.probed = false) (hok : s.Ok S clean patched b phase) :
    (s.goTo b phase).Inv S clean patched := by
  refine h.move rfl rfl h.published (Or.inr ⟨rfl, rfl, rfl⟩) ?_ ?_ ?_
  · intro hphase hother
    rcases htree hphase with hb | htree
    · exact h.tree (forall_bool hb hother)
    · exact htree
  · intro hreads _ hother
    rcases hreads with hself | hreads
    · rw [hprobed] at hself
      cases hself
    · cases hb : (s.phase b).breaking with
      | true =>
        rw [hunread hb] at hreads
        cases hreads
      | false => exact h.probe (!b) hreads (forall_bool hb hother)
  · cases phase <;> exact hok

omit [DecidableEq Key] in
theorem Inv.raise (happlies : S.Applies S.entries clean patched) (h : s.Inv S clean patched)
    (hapart : s.Apart) {b : Bool} (hunbroken : s.Unbroken (b, .raise)) :
    (s.raise b).Inv S clean patched := by
  rcases raise_cases s b with ⟨k, htry, hraise⟩ | ⟨hpatching, hraise⟩ | hraise
  · rw [hraise]
    exact h.leave (fun e => by cases e) (hapart.unread hunbroken) rfl
      (h.laidOver happlies hapart htry)
  · rw [hraise]
    exact h.leave (fun _ => Or.inl hpatching) (hapart.unread hunbroken) rfl trivial
  · rw [hraise]
    exact h

omit [DecidableEq Key] in
theorem Inv.giveUp (happlies : S.Applies S.entries clean patched) (h : s.Inv S clean patched)
    (hapart : s.Apart) {b : Bool} (hunbroken : s.Unbroken (b, .giveUp)) :
    (s.giveUp S b).Inv S clean patched := by
  have hok := h.ok b
  have hunread := hapart.unread hunbroken
  cases hphase : s.phase b with
  | replacing k =>
    simp only [World.giveUp, hphase]
    exact h.leave (fun e => by cases e) hunread rfl
      (h.laidOver happlies hapart (by rw [hphase]; rfl))
  | pruning k hit stale =>
    rw [hphase] at hok
    cases stale with
    | nil => simpa only [World.giveUp, hphase] using h
    | cons name stale =>
      simp only [World.giveUp, hphase]
      cases hit with
      | true => exact h.leave (fun _ => Or.inl (by rw [hphase]; rfl)) hunread rfl trivial
      | false => exact h.leave (fun e => by cases e) hunread rfl hok
  | discarding k =>
    rw [hphase] at hok
    simp only [World.giveUp, hphase]
    exact h.leave (fun e => by cases e) hunread rfl (Site.restores_reverse hok)
  | restoring k todo =>
    rw [hphase] at hok
    cases todo with
    | nil =>
      simp only [World.giveUp, hphase]
      exact h.leave (fun _ => Or.inr (congrArg Prod.fst hok)) hunread rfl trivial
    | cons e todo => simpa only [World.giveUp, hphase] using h
  | _ => simpa only [World.giveUp, hphase] using h

theorem Inv.step (hnames : (S.template.map Prod.fst).Nodup)
    (hclean : S.verifyClean S.entries clean = none) (happlies : S.Applies S.entries clean patched)
    (h : s.Inv S clean patched) (hapart : s.Apart) (l : Bool × Act Key)
    (hunbroken : s.Unbroken l) : (step S s l).Inv S clean patched := by
  obtain ⟨b, a⟩ := l
  refine Inv.observe ?_
  cases a with
  | go => exact h.go hnames hclean happlies hapart b
  | unlink path => exact h.unlink hapart b path
  | giveUp => exact h.giveUp happlies hapart hunbroken
  | list stale => exact h.list b stale
  | raise => exact h.raise happlies hapart hunbroken

/-- **Builds apart**: over every interleaving of two runs from a clean SDK tree that the patch set
applies to, in which their exclusive parts do not overlap unless both are cache hits, and none
breaks off writing or removing the probe directory while the other decides about the cache, every
entry published is whole, and the SDK tree is clean when both runs have finished. -/
theorem published_whole (S : Site Tree Key) (hnames : (S.template.map Prod.fst).Nodup)
    (hclean : S.verifyClean S.entries clean = none) (happlies : S.Applies S.entries clean patched)
    (dirs : Name Key → Option Files) (work : Key → Option Files) (ls : List (Bool × Act Key))
    (hapart : Along (step S) Apart (initial clean dirs work) ls)
    (hunbroken : Meets (step S) Unbroken (initial clean dirs work) ls) :
    Along (step S) (S.Sound clean patched) (initial clean dirs work) ls :=
  (along_of_meets (fun _ l h hc => h.step hnames hclean happlies hc.1 l hc.2) inv_initial
    (hapart.meets.and hunbroken)).mono fun _ h => h.sound

/-- A tree of one number, a patch that makes 1 of 0, and a build of one file with that number; the
two runs have keys of their own. -/
def demo : Site Nat Bool where
  diff _ _ := PEquiv.single 0 1
  isDir _ _ := true
  modified t _ := t != 0
  entries := [⟨"fix.patch", "components", []⟩]
  template := [("Makefile", [7])]
  force _ := false
  keepWork _ := false
  key b _ _ := b
  make _ t work :=
    if (work "libc.a").isNone then .write "libc.a" [UInt8.ofNat t] else .finished
  stage _ _ _ work staging :=
    if (staging "lib/libc.a").isNone then .write "lib/libc.a" ((work "libc.a").getD [])
    else if (staging "manifest.json").isNone then .write "manifest.json" []
    else .finished

theorem demo_applies : demo.Applies demo.entries 0 1 :=
  .applied (by decide) rfl rfl .done

/-- The run `b` goes on for `n` steps. -/
def going (b : Bool) (n : Nat) : List (Bool × Act Bool) := List.replicate n (b, .go)

/-- The second run computes its key while the first is building. -/
theorem published_keying : Along (step demo) (demo.Sound 0 1)
    (initial 0 (fun _ => none) fun _ => none)
    (going true 4 ++ going false 12 ++ going true 1 ++ going false 5 ++ [(false, .list [])] ++
      going false 3 ++ going true 12 ++ [(true, .list [])] ++ going true 3) :=
  published_whole demo (by decide) rfl demo_applies _ _ _ (by decide) (by decide)

/-- The second run finds the tree patched by the first, raises, and takes the patches back. -/
theorem published_unpatched : ¬ ∀ (S : Site Nat Bool) (clean patched : Nat),
    (S.template.map Prod.fst).Nodup → S.verifyClean S.entries clean = none →
      S.Applies S.entries clean patched → ∀ dirs work ls,
        Along (step S) (S.Sound clean patched) (initial clean dirs work) ls := by
  intro h
  have hrun := h demo 0 1 (by decide) rfl demo_applies (fun _ => none) (fun _ => none)
    (going false 11 ++ going true 12 ++ going false 6)
  have hseen := fun r hr => (hrun.last.published r hr).seen
  exact absurd hseen (by decide)

end World

end Bl616cl.Runtime.Concurrent
