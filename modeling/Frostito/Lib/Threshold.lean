import Frostito.Lib.Schnorr
import Frostito.Lib.Sharing

/-!
# Threshold Schnorr

Parties that hold shares of one sharing answer a challenge together: each answers for its nonces
and its weighted share, and the sum of the responses answers for the sum of the nonces'
commitments and the key of the sharing.
-/

namespace Threshold

open Sharing

variable {F M ι : Type*} [Field F] [AddCommGroup M] [Module F M] [DecidableEq F]

/-- What a party with the nonces `d` and `e` and the share `s` responds: the binding factor is
`rho`, the weight among the parties `lambda`, and the challenge `c`. -/
def response (d e s rho lambda c : F) : F := d + rho * e + lambda * c * s

/-- **The responses of enough parties answer for the key.** -/
theorem answers_sum_response {g : M} {parties : List ι} {point : ι → F}
    (hnd : (parties.map point).Nodup) {cs : List M} (hlen : cs.length ≤ parties.length)
    {s : ι → F} (hshare : ∀ i ∈ parties, IsShare g cs (point i) (s i)) (d e rho : ι → F) (c : F) :
    Schnorr.Answers g (cs.headD 0)
      (parties.map fun i => d i • g + rho i • e i • g).sum
      (parties.map fun i => response (d i) (e i) (s i) (rho i)
        (partyWeight parties point i) c).sum c := by
  have hterm : ∀ i, response (d i) (e i) (s i) (rho i) (partyWeight parties point i) c
      = (d i + rho i * e i) + c * (partyWeight parties point i * s i) := by
    intro i
    rw [response]
    ring
  rw [Schnorr.Answers, ← reconstruct hnd hlen hshare]
  simp only [hterm]
  rw [List.sum_map_add, List.sum_map_mul_left, add_smul, mul_smul, List.sum_smul, List.map_map]
  simp only [Function.comp_def, add_smul, mul_smul]

end Threshold
