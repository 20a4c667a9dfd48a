import ContentSecurity.Exchange
import ContentSecurity.Json.RoundTrip
import ContentSecurity.Main
import ContentSecurity.Proofs.Grammar.Authority
import ContentSecurity.Proofs.Header.Decoder
import ContentSecurity.Proofs.Header.Printing
import ContentSecurity.Proofs.Store.InPlace
import ContentSecurity.Proofs.Store.Merging
import ContentSecurity.Proofs.Store.Rereading
import ContentSecurity.Proofs.Store.Sameness
import ContentSecurity.Proofs.Store.SetAlgebra
import ContentSecurity.Text.LetterCase
import ContentSecurity.Written.Amendments
import ContentSecurity.Proofs.Recording
import ContentSecurity.Proofs.Deployment.Clearing
import ContentSecurity.Proofs.Deployment.Interleaving
import ContentSecurity.Proofs.Deployment.History
import ContentSecurity.Proofs.Deployment.Pass
import ContentSecurity.Proofs.Json.Reading
import ContentSecurity.Proofs.Store.Separation
import ContentSecurity.Proofs.Written.Documents
import ContentSecurity.Proofs.Deployment.Headers
import ContentSecurity.Proofs.Deployment.Check
import ContentSecurity.Proofs.Deployment.Accounting
import ContentSecurity.Proofs.Header.UserAgent
import ContentSecurity.Proofs.Directive.Verdict
import ContentSecurity.Proofs.Store.Extension
import ContentSecurity.Proofs.Store.Removal
import ContentSecurity.Proofs.Store.Undoing
import ContentSecurity.Proofs.Store.Blame
import ContentSecurity.Proofs.Grammar.LetterCase
import ContentSecurity.Proofs.Grammar.LongestFront
