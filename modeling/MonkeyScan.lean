import MonkeyScan.Main
import MonkeyScan.Proofs.Consumption
import MonkeyScan.Proofs.Delivery
import MonkeyScan.Proofs.Escaping
import MonkeyScan.Proofs.Excerpt
import MonkeyScan.Proofs.Failing
import MonkeyScan.Proofs.Gluing
import MonkeyScan.Proofs.Independence
import MonkeyScan.Proofs.Interactive
import MonkeyScan.Proofs.Lines
import MonkeyScan.Proofs.Listing
import MonkeyScan.Proofs.Literals
import MonkeyScan.Proofs.Lookahead
import MonkeyScan.Proofs.Lossy
import MonkeyScan.Proofs.Peeking
import MonkeyScan.Proofs.Placement
import MonkeyScan.Proofs.Plain
import MonkeyScan.Proofs.Printing
import MonkeyScan.Proofs.Progress
import MonkeyScan.Proofs.Quotation
import MonkeyScan.Proofs.Quoting
import MonkeyScan.Proofs.Rendering
import MonkeyScan.Proofs.Reporting
import MonkeyScan.Proofs.Spacing
import MonkeyScan.Proofs.Spelling
import MonkeyScan.Proofs.Strictness
import MonkeyScan.Session
