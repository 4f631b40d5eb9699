import Mathlib.Control.Monad.Basic
import TaggedBuffer.Proofs.Buffer.Items
import TaggedBuffer.Proofs.Buffer.SetSection
import TaggedBuffer.Proofs.Buffer.Simulation
import TaggedBuffer.Proofs.World.Mirror

namespace TaggedBuffer

open Content
open Buffer (pairsSize checkEntry)

/-- With this error the call has done nothing, where others of its kind may have done a part. -/
def Call.FailsWhole : Call → Error → Prop
  | edit e, _ => ¬ e.AddsMany
  | merge _, _ => False
  | setSection _ _, fault => ¬ fault.IsAllocation
  | _, _ => True

section Intact

variable [Allocator] {σ : Type} [Store σ] [LawfulStore σ] {s : σ}

theorem setKey_intact (key : Key) (v : Value) (hs : Store.used s % 4 = 0) :
    Intact (Buffer.setKey key v) s := by
  cases key with
  | name name => exact setNamed_intact name v hs
  | index index => exact setIndex_intact index v s
  | slot name number =>
    apply Intact.content
    split
    next p _ => exact .of_edits (Buffer.set_edits p v s)
    · dsimp only
      split
      · exact .of_edits (Buffer.append_edits (some name) v hs)
      · split
        · exact Intact.check fun stop => insert_intact stop none v hs
        · exact .throw _

variable [Placed σ]

theorem appendParsed_whole (text : String) (hs : (Store.content s).size % 4 = 0) :
    (∃ pairs s', parseItems text = .ok pairs ∧ Buffer.appendParsed text s = .ok pairs.length s' ∧
      (∀ pair ∈ pairs, Storable pair) ∧ Store.content s' = Store.content s ++ encoded pairs) ∨
    ∃ e, Buffer.appendParsed text s = .error e s := by
  cases hp : parseItems text with
  | error e =>
    right
    refine ⟨e, ?_⟩
    rw [Buffer.appendParsed, Update.bind_check_error hp]
  | ok pairs =>
    rcases appendParsed_parsed hp hs with ⟨s', hrun, hcontent⟩ | ⟨e, hrun, -, -⟩
    · exact .inl ⟨pairs, s', rfl, hrun, parseItems_storable hp, hcontent⟩
    · exact .inr ⟨e, hrun⟩

theorem appendParsed_intact (text : String) (hs : (Store.content s).size % 4 = 0) :
    Intact (Buffer.appendParsed text) s := by
  intro e s' h
  rcases appendParsed_whole text hs with ⟨_, _, _, hok, _⟩ | ⟨e', herror⟩
  · cases hok.symm.trans h
  · cases herror.symm.trans h
    rfl

omit [Placed σ] in
/-- What is refused before the first value is laid changes nothing, and after it nothing is refused. -/
theorem setSection_intact {name : String} {vs : List Value} {pairs : List Pair} {e : Error} {s' : σ}
    (hs : Packed (Store.content s) pairs) (h : Buffer.setSection name vs s = .error e s')
    (he : ¬ e.IsAllocation) : s' = s := by
  cases hn : checkName name with
  | error fault =>
    rw [Buffer.setSection, Update.bind_check_error hn] at h
    cases h
    rfl
  | ok u =>
    cases hv : vs.forM checkValue with
    | error fault =>
      rw [Buffer.setSection, Update.bind_check_ok hn, Update.bind_check_error hv] at h
      cases h
      rfl
    | ok u =>
      obtain ⟨pre, sec, post, rfl, hsec⟩ := exists_sectioned name pairs
      have hrun := Buffer.setSection_within hn (forM_checkValue_ok.1 hv) hs hsec (Nat.le_refl _)
      exact (he (hrun.of_error h)).elim

theorem Call.run_intact {c : Call} {e : Error} (hc : c.FailsWhole e) {pairs : List Pair}
    (hs : Packed (Store.content s) pairs) {s' : σ} (h : c.run s = .error e s') : s' = s := by
  have hmod : Store.used s % 4 = 0 := by rw [← Store.size_content, hs.size_mod]
  cases c with
  | edit e' => exact Edit.run_intact hc hmod e s' h
  | setKey key v => exact (setKey_intact key v hmod).map _ e s' h
  | removeKey key =>
    exact (Intact.content (removeFound_intact _ s)).map _ e s' h
  | setSection name vs => exact setSection_intact hs (Update.of_map_error h) hc
  | appendInferred name text =>
    exact (Intact.of_edits (Buffer.append_edits (some name) (.infer text) hmod)).map _ e s' h
  | appendParsed text => exact (appendParsed_intact text hs.size_mod).map _ e s' h
  | merge other => exact hc.elim

end Intact

theorem Update.exists_of_answer {σ α : Type} {r : EStateM.Result Error σ α} {e : Error}
    (h : answer r = .error e) : ∃ s, r = .error e s := by
  cases r with
  | ok a s => cases h
  | error e' s =>
    cases h
    exact ⟨s, rfl⟩

namespace World

variable {name : String}

theorem local?_putLocal_self {w : World} {l : Local} (h : w.local? name = some l) (other : String) :
    (w.putLocal name l).local? other = w.local? other := by
  by_cases ho : other = name
  · subst ho
    rw [local?_putLocal, h]
  · exact local?_putLocal_ne ho w l

theorem handle?_put_self {p : Pool} {s : Shared} (h : p.view? name = some s) (other : String) :
    (p.put name s).handle? other = p.handle? other := by
  by_cases ho : other = name
  · subst ho
    obtain ⟨id, hid, rfl⟩ := Option.map_eq_some_iff.1 h
    simp [Pool.handle?, Pool.put, ← hid]
  · exact Pool.handle?_put_ne ho s

theorem update_failed (w : World) {f : {σ : Type} → [Store σ] → Update σ Answer} {e : Error}
    (hf : ∀ {σ : Type} [Store σ] [LawfulStore σ] [Placed σ] (s s' : σ),
      w.seen? name = some (Store.seen s) → f s = .error e s' → s' = s)
    (h : (w.update name f).1 = some (.error e)) :
    (w.update name f).2.pool.heap = w.pool.heap ∧
      (∀ other, (w.update name f).2.pool.handle? other = w.pool.handle? other) ∧
      ∀ other, (w.update name f).2.local? other = w.local? other := by
  have hfinal : ∀ {σ : Type} [Store σ] [LawfulStore σ] [Placed σ] (s : σ),
      w.seen? name = some (Store.seen s) → some (Update.answer (f s)) = some (.error e) →
        Update.final (f s) = s := by
    intro σ _ _ _ s hseen ha
    obtain ⟨s', hrun⟩ := Update.exists_of_answer (Option.some.inj ha)
    rw [hrun]
    exact hf s s' hseen hrun
  rw [update] at h ⊢
  split at h
  next s hs =>
    rw [hfinal s (by rw [seen?, hs]; rfl) h]
    exact ⟨rfl, fun _ => rfl, local?_putLocal_self hs⟩
  next s hs =>
    rw [hfinal s (by rw [seen?, hs]; rfl) h]
    exact ⟨rfl, fun _ => rfl, local?_putLocal_self hs⟩
  next hlocal =>
    split at h
    next s hs =>
      have hseen : w.seen? name = some (Store.seen s) := by
        rw [seen?, hlocal, Pool.seen?, hs]
        rfl
      have hheap : s.heap = w.pool.heap := by
        obtain ⟨id, -, rfl⟩ := Option.map_eq_some_iff.1 hs
        rfl
      rw [hfinal s hseen h]
      exact ⟨hheap, handle?_put_self hs, fun _ => rfl⟩
    · cases h

end World

/-- Whatever memory is refused, a call that fails leaves storage of any kind as it was, items are
added all or none, and in a world no block, no handle and no storage has changed. -/
theorem failure_unseen [Allocator] :
    (∀ (f : Flavor) (s : f.Storage) (n : Nat), validate (Store.content s) = .ok n →
      (∀ (c : Call) (e : Error) (s' : f.Storage), c.FailsWhole e → c.run s = .error e s' → s' = s) ∧
      ∀ text : String,
        (∃ pairs s', parseItems text = .ok pairs ∧
          Buffer.appendParsed text s = .ok pairs.length s' ∧
          entries (Store.content s') =
            located 0 ((entries (Store.content s)).map Entry.pair ++ pairs)) ∨
        ∃ e, Buffer.appendParsed text s = .error e s) ∧
    ∀ (w : World) (name : String) (v : Seen) (n : Nat), w.seen? name = some v →
      validate v.content = .ok n → ∀ (c : Call) (e : Error), c.FailsWhole e →
        (w.step (.call name c)).1 = some (.error e) →
        (w.step (.call name c)).2.pool.heap = w.pool.heap ∧
        (∀ other, (w.step (.call name c)).2.pool.handle? other = w.pool.handle? other) ∧
        ∀ other, (w.step (.call name c)).2.local? other = w.local? other := by
  constructor
  · intro f s n hs
    obtain ⟨old, hold, -⟩ := validate_ok_iff.1 hs
    refine ⟨fun c e s' hc h => Call.run_intact hc hold h, fun text => ?_⟩
    rcases appendParsed_whole text hold.size_mod with ⟨pairs, s', hp, hok, hstorable, hc⟩ | herror
    · left
      refine ⟨pairs, s', hp, hok, ?_⟩
      rw [map_pair_entries hold, hc]
      exact entries_of_packed (hold.append (packed_encoded hstorable))
    · exact .inr herror
  · intro w name v n hv hvalid c e hc h
    obtain ⟨pairs, hpacked, -⟩ := validate_ok_iff.1 hvalid
    refine w.update_failed ?_ h
    intro σ _ _ _ s s' hs hrun
    obtain rfl : v = Store.seen s := Option.some.inj (hv.symm.trans hs)
    exact Call.run_intact hc hpacked hrun

/-- Two handles on one block, and items of which the second cannot be read. No memory is there for a
block of its own of the one handle, of the same size or a smaller one. -/
theorem failure_unseen_items :
    let w := (World.empty.run [.create "a" .shared .new,
      .call "a" (.edit (.append (some "x") (.bool true))), .clone "a" "b"]).2
    let w' := (w.step (.call "b" (.appendParsed "y,bool,true;z,bool,maybe"))).2
    (w'.pool.heap = w.pool.heap ∧ w'.pool.handle? "a" = some (some 0) ∧
      w'.pool.handle? "b" = some (some 0)) ∧
    ∀ request ∈ [(Edit.reserve 16, 64), (.shrinkToFit, 16)],
      let refused := @World.step ⟨fun _ => false⟩ (.call "b" (.edit request.1)) w
      refused.1 = some (.error (.outOfMemory request.2)) ∧
        refused.2.pool.heap = w.pool.heap ∧ refused.2.pool.handle? "a" = some (some 0) ∧
        refused.2.pool.handle? "b" = some (some 0) := by
  intro w w'
  have hstorable : ∀ pair ∈ [(some "x", Value.bool true)], Storable pair :=
    List.forall_mem_singleton.2 ⟨trivial, rfl⟩
  have hseen : (w.seen? "b").map Seen.content = some (encoded [(some "x", .bool true)]) := by
    decide +kernel
  obtain ⟨v, hv, hcontent⟩ := Option.map_eq_some_iff.1 hseen
  have hvalid : validate v.content = .ok 1 :=
    validate_ok_iff.2 ⟨_, hcontent ▸ packed_encoded hstorable, rfl⟩
  have ha : w.pool.handle? "a" = some (some 0) := by decide +kernel
  have hb : w.pool.handle? "b" = some (some 0) := by decide +kernel
  have hsingle : ∀ request ∈ [(Edit.reserve 16, 64), (.shrinkToFit, 16)], ¬ request.1.AddsMany :=
    List.forall_mem_cons.2 ⟨id, List.forall_mem_singleton.2 id⟩
  have hanswers : ∀ request ∈ [(Edit.reserve 16, 64), (.shrinkToFit, 16)],
      (@World.step ⟨fun _ => false⟩ (.call "b" (.edit request.1)) w).1 =
        some (.error (.outOfMemory request.2)) := by decide +kernel
  constructor
  · have hrefused : (w.step (.call "b" (.appendParsed "y,bool,true;z,bool,maybe"))).1.map
        Except.isOk = some false := by decide +kernel
    obtain ⟨r, hr, hfails⟩ := Option.map_eq_some_iff.1 hrefused
    cases r with
    | ok a => cases hfails
    | error e =>
      obtain ⟨hheap, hhandles, -⟩ :=
        failure_unseen.2 w "b" v 1 hv hvalid (.appendParsed _) e trivial hr
      exact ⟨hheap, (hhandles "a").trans ha, (hhandles "b").trans hb⟩
  · intro request hrequest refused
    have hanswer : refused.1 = some (.error (.outOfMemory request.2)) := hanswers request hrequest
    obtain ⟨hheap, hhandles, -⟩ :=
      (@failure_unseen ⟨fun _ => false⟩).2 w "b" v 1 hv hvalid (.edit request.1) _
        (hsingle request hrequest) hanswer
    exact ⟨hanswer, hheap, (hhandles "a").trans ha, (hhandles "b").trans hb⟩

end TaggedBuffer
