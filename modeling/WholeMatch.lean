import WholeMatch.Cursor.Family
import WholeMatch.IndexSet.Requests
import WholeMatch.Regex.Session
import WholeMatch.Cache
import WholeMatch.Workbench
import WholeMatch.Proofs.Locating
import WholeMatch.Proofs.Safety
import WholeMatch.Proofs.Locality
import WholeMatch.Proofs.Caching
import WholeMatch.Proofs.Candidates
import WholeMatch.Proofs.Copies
import WholeMatch.Proofs.Estimating
import WholeMatch.Proofs.Returning
import WholeMatch.Proofs.Visiting
import WholeMatch.Proofs.Nesting
import WholeMatch.Proofs.Settling
import WholeMatch.Proofs.Exactness
import WholeMatch.Proofs.Trimming
import WholeMatch.Proofs.Listing
import WholeMatch.Proofs.Windows
import WholeMatch.Proofs.Displacing
import WholeMatch.Proofs.Enclosing
import WholeMatch.Proofs.Ordering
import WholeMatch.Proofs.Building
import WholeMatch.Proofs.Decoding
import WholeMatch.Proofs.Answering
import WholeMatch.Proofs.Distances
