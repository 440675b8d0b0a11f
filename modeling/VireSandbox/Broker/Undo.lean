import VireSandbox.Broker.Calls
/-!
# The temporary user — added and removed

`add_tmpuser_wxCVbn` works inside the cells of its user and of its vhost,
and its first call makes the user: cut anywhere, it has either done
nothing or left a user that `del_tmpuser_wxCVbn` finds. That program
empties both sets of cells, and with them whatever stands in their way to
the broker there was before.
-/

namespace VireSandbox

namespace Broker

variable {R : Type} {absentOk : Bool} {b : Broker R} {fails : ℕ → Bool} {u v : String}

/-! ## What is added -/

theorem writing_addTmpuserCalls (L : Rights R) : Writing (addTmpuserCalls L) := by
  simp [Writing, addTmpuserCalls, Call.write]

/-- **The program stays inside its user and its vhost.** -/
theorem addTmpuser_agreeOn (L : Rights R) (absentOk : Bool) (fails : ℕ → Bool) (b : Broker R) :
    Store.AgreeOn (fun k => ¬ (k.OfVhost tmpVhost ∨ k.OfUser "wxCVbn"))
      ((service R absentOk).run (addTmpuser L) fails b).state b := by
  have hcells : ∀ c ∈ addTmpuserCalls L, c.cell.OfVhost tmpVhost ∨ c.cell.OfUser "wxCVbn" := by
    simp [addTmpuserCalls, Call.cell, Cell.OfVhost, Cell.OfUser]
  refine exec_agreeOn (r := ⟨true, b, false⟩) fun c k hc htouch => ?_
  replace hc : c ∈ addTmpuserCalls L := by simpa [addTmpuser] using hc
  rw [touches_of_write (writing_addTmpuserCalls L c hc) htouch]
  exact hcells c hc

/-- **Wherever it is cut it has made its user, or nothing.** -/
theorem addTmpuser_user (L : Rights R) (absentOk : Bool) (fails : ℕ → Bool) (b : Broker R) :
    ((service R absentOk).run (addTmpuser L) fails b).state.Has (.user "wxCVbn") ∨
      ((service R absentOk).run (addTmpuser L) fails b).state = b := by
  obtain ⟨cs, hcs⟩ : ∃ cs, addTmpuserCalls L = .addUser "wxCVbn" "wxCVbn" :: cs := ⟨_, rfl⟩
  unfold addTmpuser
  rw [hcs]
  rcases (service R absentOk).run_ifOk_cases fails b (.addUser "wxCVbn" "wxCVbn") cs with
    ⟨-, -, hrun⟩ | ⟨-, hrun⟩
  · rw [hrun]
    refine .inl (Service.exec_invariant (fun b : Broker R => b.Has (.user "wxCVbn")) ?_ ?_)
    · rintro c s hc h -
      have hcall : c ∈ addTmpuserCalls L := by
        rw [hcs]
        exact List.mem_cons_of_mem _ (by simpa using hc)
      exact h.effect (writing_addTmpuserCalls L c hcall)
    · exact has_put_iff.2 (.inl rfl)
  · rw [hrun]
    exact .inr rfl

/-! ## What is removed -/

theorem needs_deleteUser : ∀ k ∈ (Call.deleteUser u : Call R).needs absentOk, k = .user u := by
  cases absentOk <;> simp [Call.needs]

theorem needs_deleteVhost : ∀ k ∈ (Call.deleteVhost v : Call R).needs absentOk, k = .vhost v := by
  cases absentOk <;> simp [Call.needs]

/-- A deletion takes effect where it does not fail on something that is
there. -/
theorem run_delete_cases (fails : ℕ → Bool) (b : Broker R) {c : Call R}
    (hneeds : ∀ k ∈ c.needs absentOk, k = c.cell)
    (hfails : fails 0 = true → ¬ b.Has c.cell) (cs : List (Call R)) :
    (service R absentOk).run ((c :: cs).map .ifOk) fails b =
      (service R absentOk).run (cs.map .ifOk) (fun n => fails (n + 1)) (c.effect b) ∨
    (¬ b.Has c.cell ∧
      (service R absentOk).run ((c :: cs).map .ifOk) fails b = ⟨false, b, true⟩) := by
  rcases (service R absentOk).run_ifOk_cases fails b c cs with ⟨-, -, hrun⟩ | ⟨hno, hrun⟩
  · exact .inl hrun
  · refine .inr ⟨?_, hrun⟩
    rcases hno with hfail | hrefused
    · exact hfails hfail
    · intro hhas
      have haccepts : (service R absentOk).accepts b c = true :=
        accepts_iff.2 fun k hk => hneeds k hk ▸ hhas
      rw [haccepts] at hrefused
      cases hrefused

/-- **Removing the temporary user undoes any run of adding it**, cut
anywhere: for every well-formed broker without the user and the vhost, if
no deletion of what is there fails, the broker is what it was. Whether the
deletion of what is not there is reported as done is left open. -/
theorem delTmpuser_undoes_addTmpuser (L : Rights R) (absentOk : Bool) (b : Broker R)
    (hwf : b.WellFormed) (huser : ¬ b.Has (.user "wxCVbn")) (hvhost : ¬ b.Has (.vhost tmpVhost))
    (fails failsDel : ℕ → Bool)
    (hspares : ∀ n (c : Call R), delTmpuser[n]? = some (.ifOk c) → failsDel n = true →
      ¬ ((service R absentOk).run (addTmpuser L) fails b).state.Has c.cell) :
    ((service R absentOk).run delTmpuser failsDel
      ((service R absentOk).run (addTmpuser L) fails b).state).state = b := by
  have hagree := addTmpuser_agreeOn L absentOk fails b
  have hadded := addTmpuser_user L absentOk fails b
  have hwf' : ((service R absentOk).run (addTmpuser L) fails b).state.WellFormed := hwf.exec
  generalize ((service R absentOk).run (addTmpuser L) fails b).state = b' at *
  -- what both deletions leave is the broker there was
  have hboth : Store.clear (Store.clear b' (Cell.OfUser "wxCVbn")) (Cell.OfVhost tmpVhost) = b := by
    rw [Store.clear_clear]
    refine Store.clear_eq_of_agreeOn hagree fun k hk => ?_
    rcases hk with hk | hk
    · exact hwf.empty_of_vhost hvhost k hk
    · exact hwf.empty_of_user huser k hk
  rcases run_delete_cases failsDel b' needs_deleteUser (hspares 0 _ rfl)
    [.deleteVhost tmpVhost] with hrun | ⟨hno, hrun⟩
  · change ((service R absentOk).run ([.deleteUser "wxCVbn", .deleteVhost tmpVhost].map .ifOk)
      failsDel b').state = b
    rw [hrun]
    rcases run_delete_cases (fun n => failsDel (n + 1)) (Call.effect b' (.deleteUser "wxCVbn"))
      needs_deleteVhost (fun hf hhas => hspares 1 _ rfl hf (has_clear_iff.1 hhas).2) [] with
      hrun | ⟨hno, hrun⟩
    · rw [hrun]
      exact hboth
    · -- a vhost that is not there has nothing to delete
      have hnone : ∀ k ∈ (Call.deleteUser "wxCVbn" : Call R).needs true, b'.Has k := nofun
      have hwf'' := hwf'.effect hnone
      rw [hrun]
      exact (Store.clear_of_empty (hwf''.empty_of_vhost hno)).symm.trans hboth
  · change ((service R absentOk).run ([.deleteUser "wxCVbn", .deleteVhost tmpVhost].map .ifOk)
      failsDel b').state = b
    rw [hrun]
    exact hadded.resolve_left hno

/-- Rights that list what was asked of them. -/
def askedRights : Rights (List String) where
  clear := []
  patterns configure write read := [configure, write, read]
  addExchangeService exchange perms := perms ++ ["service " ++ exchange]
  addExchangeRequest exchange perms := perms ++ ["request " ++ exchange]
  addExchangeEventProducer exchange perms := perms ++ ["producer " ++ exchange]
  addExchangeEventListener exchange perms := perms ++ ["listener " ++ exchange]

/-- A broker with the users and the vhosts the programs build on. -/
def plainBroker : Broker (List String)
  | .user name => if name ∈ ["supernemo_adm", "vireserver", "cmslapp"] then some "secret" else none
  | .vhost name =>
    if name ∈ ["/supernemo/demonstrator/cms/vire/control",
        "/supernemo/demonstrator/cms/vire/monitoring"] then some () else none
  | .exchange _ _ | .permission _ _ => none

/-- The program cut at its second exchange. -/
def cutAtEvent (n : ℕ) : Bool := n = 5

theorem delTmpuser_undoes_addTmpuser_cutAtEvent :
    let added := (service (List String) false).run (addTmpuser askedRights) cutAtEvent plainBroker
    added.ok = false ∧ added.state.Has (.exchange tmpVhost "vireserver.service") ∧
      ((service (List String) false).run delTmpuser (fun _ => false) added.state).state =
        plainBroker := by
  refine ⟨by decide, by decide, ?_⟩
  exact delTmpuser_undoes_addTmpuser askedRights false plainBroker ⟨nofun, nofun⟩ (by decide)
    (by decide) cutAtEvent (fun _ => false) (fun _ _ _ h => by cases h)

end Broker

end VireSandbox
